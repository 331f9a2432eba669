import DistFuzz.Lib.MaxRuns
import DistFuzz.Fuzzer.BitFlip

/-!
# Token discovery (FuzzOne.cpp:286–412)

While `BitFlip` 1/1 flips the first bit of each byte, it watches the checksums of the
traces. Consecutive bytes whose flips all lead to the same trace, another one than that
of the seed, are taken for a token of the input format and go to `AddToken`.

- `flipCksum`: the checksum that the flip in a byte gives.
- `Collecting`: the state of the collector after some turns: the runs that have ended are
  with `AddToken`, the current one is in the local `token`.
- `bitFlip_collects`: this holds after all turns.
- `token_discovery_iff`: a run is closed by the byte after it. The branch for the end of
  the file asks for a turn that is at the first bit of a byte and at the last bit of the
  file, so a run that ends with the file is lost.
-/

namespace DistFuzz.Fuzzer

open DistFuzz.Lib

section Collector

variable (seed : Block)

/-- The token of the bytes from `r.1` to `r.2`: no more than `MAX_TOKEN_SIZE` of them. -/
def runBytes (r : Nat × Nat) : List UInt8 :=
  (seed.bytes.drop r.1).take (min maxTokenSize (r.2 - r.1))

variable {seed}

theorem length_runBytes {a b : Nat} (hb : b ≤ seed.size) :
    (runBytes seed (a, b)).length = min maxTokenSize (b - a) := by
  rw [runBytes, List.length_take, List.length_drop]
  change b ≤ seed.bytes.length at hb
  dsimp only
  omega

/-- One byte more, if there is room for it. -/
theorem runBytes_succ {a b : Nat} (hab : a ≤ b) (hb : b < seed.size) :
    runBytes seed (a, b + 1) = if b - a < maxTokenSize
      then runBytes seed (a, b) ++ [seed.bytes.getD b 0] else runBytes seed (a, b) := by
  have hlt : b - a < (seed.bytes.drop a).length := by
    rw [List.length_drop]
    change b < seed.bytes.length at hb
    omega
  simp only [runBytes]
  split
  -- below the maximal length the byte is appended, and beyond it the token stays as it is
  · next hroom =>
    rw [show min maxTokenSize (b + 1 - a) = b - a + 1 by omega,
      show min maxTokenSize (b - a) = b - a by omega, List.take_succ_eq_append_getElem hlt,
      List.getElem_drop, List.getD_eq_getElem _ _ hb]
    congr 3
    omega
  · next hroom =>
    rw [show min maxTokenSize (b + 1 - a) = min maxTokenSize (b - a) by omega]

variable (seed) (f : Nat → UInt32) (qCksum : UInt32)

/-- The checksum before byte `m`. -/
def prevOf (m : Nat) : UInt32 := if m = 0 then qCksum else f (m - 1)

/-- The locals after the bytes before `m`. -/
def Current (m : Nat) (c : Collector) : Prop :=
  c.prevcksum = prevOf f qCksum m ∧
    c.token.bytes = if prevOf f qCksum m = qCksum then [] else runBytes seed (lastStart f m, m)

variable {seed f qCksum}

theorem push_bytes (c : Candidate) (byte : UInt8) :
    (c.push byte).bytes = if c.bytes.length < maxTokenSize then c.bytes ++ [byte] else c.bytes := by
  rw [Candidate.push]
  split <;> rfl

theorem toAdd_bytes (c : Candidate) :
    c.toAdd.map Token.bytes = if minTokenSize ≤ c.bytes.length then [c.bytes] else [] := by
  rw [Candidate.toAdd]
  split <;> rfl

theorem closedRuns_succ (m : Nat) : closedRuns f qCksum (m + 1)
    = closedRuns f qCksum m ++ if f m ≠ prevOf f qCksum m ∧ prevOf f qCksum m ≠ qCksum
        then [(lastStart f m, m)] else [] := by
  rw [closedRuns, prevOf]
  by_cases hm : m = 0
  · rw [if_neg (fun h => h.1 hm), if_pos hm, if_neg (fun h => h.2 rfl)]
  · simp only [hm, if_false, ne_eq, not_false_eq_true, true_and]

/-- A byte that starts a stretch. -/
theorem collectByte_of_ne {byte : UInt8} {cksum : UInt32} {c : Collector}
    (h : cksum ≠ c.prevcksum) :
    collectByte qCksum false byte cksum c
      = (⟨cksum, if cksum = qCksum then .empty else Candidate.empty.push byte⟩, c.token.toAdd) := by
  rw [collectByte, if_pos h]
  by_cases hq : cksum = qCksum
  · simp only [hq, ne_eq, not_true_eq_false, if_false, if_true]
  · simp only [hq, ne_eq, not_false_eq_true, if_false, if_true]

/-- A byte that continues one. -/
theorem collectByte_of_eq {byte : UInt8} {cksum : UInt32} {c : Collector}
    (h : cksum = c.prevcksum) :
    collectByte qCksum false byte cksum c
      = (⟨cksum, if cksum = qCksum then c.token else c.token.push byte⟩, []) := by
  obtain ⟨prevcksum, token⟩ := c
  rw [collectByte, if_neg (not_not.mpr h), if_neg Bool.false_ne_true, h]
  by_cases hq : prevcksum = qCksum
  · simp only [hq, ne_eq, not_true_eq_false, if_false, if_true]
  · simp only [hq, ne_eq, not_false_eq_true, if_false, if_true]

theorem prevOf_succ (m : Nat) : prevOf f qCksum (m + 1) = f m := by
  rw [prevOf, if_neg (Nat.succ_ne_zero m), Nat.add_sub_cancel]

/-- Where the stretch begins that byte `m` belongs to. -/
theorem lastStart_succ {m : Nat} (hf : f m ≠ qCksum) :
    lastStart f (m + 1) = if f m = prevOf f qCksum m then lastStart f m else m := by
  rw [lastStart, prevOf]
  by_cases hm : m = 0
  · rw [if_pos (.inl hm), if_pos hm, if_neg hf, hm]
    rfl
  · simp only [hm, false_or, if_false]

/-- Off the background there was a byte before. -/
theorem pos_of_prevOf_ne {m : Nat} (h : prevOf f qCksum m ≠ qCksum) : 0 < m := by
  refine Nat.pos_of_ne_zero fun h0 => h ?_
  rw [prevOf, if_pos h0]

/-- A byte that continues the stretch lengthens its token, up to the maximal length. -/
theorem continue_token {m : Nat} (hm : m < seed.size) {token : Candidate}
    (hsame : f m = prevOf f qCksum m)
    (htoken : token.bytes = if f m = qCksum then [] else runBytes seed (lastStart f m, m)) :
    (if f m = qCksum then token else token.push (seed.bytes.getD m 0)).bytes
      = if f m = qCksum then [] else runBytes seed (lastStart f (m + 1), m + 1) := by
  -- a stretch with the checksum of the seed is background and collects nothing
  by_cases hq : f m = qCksum
  · rw [if_pos hq] at htoken
    rw [if_pos hq, if_pos hq, htoken]
  · rw [if_neg hq] at htoken
    have hlt := (lastStart_spec (f := f) (pos_of_prevOf_ne (hsame ▸ hq))).1
    rw [if_neg hq, if_neg hq, push_bytes, htoken, lastStart_succ hq, if_pos hsame,
      runBytes_succ (Nat.le_of_lt hlt) hm, length_runBytes (Nat.le_of_lt hm)]
    congr 1
    rw [eq_iff_iff]
    omega

/-- A byte that starts a stretch is all of its token. -/
theorem start_token {m : Nat} (hm : m < seed.size) (hsame : f m ≠ prevOf f qCksum m) :
    (if f m = qCksum then Candidate.empty
        else Candidate.empty.push (seed.bytes.getD m 0)).bytes
      = if f m = qCksum then [] else runBytes seed (lastStart f (m + 1), m + 1) := by
  by_cases hq : f m = qCksum
  · rw [if_pos hq, if_pos hq]
    rfl
  · rw [if_neg hq, if_neg hq, lastStart_succ hq, if_neg hsame,
      runBytes_succ (Nat.le_refl m) hm, Nat.sub_self, if_pos (by decide), runBytes,
      Nat.sub_self, Nat.min_zero, List.take_zero]
    rfl

/-- The token of a stretch that ends is added, unless the stretch is in the background. -/
theorem ended_token {m : Nat} (hm : m < seed.size) {token : Candidate}
    (hsame : f m ≠ prevOf f qCksum m)
    (htoken : token.bytes
      = if prevOf f qCksum m = qCksum then [] else runBytes seed (lastStart f m, m)) :
    token.toAdd.map Token.bytes
      = (if f m ≠ prevOf f qCksum m ∧ prevOf f qCksum m ≠ qCksum
          then [(lastStart f m, m)] else []).map (runBytes seed) := by
  rw [toAdd_bytes, htoken]
  by_cases hq : prevOf f qCksum m = qCksum
  · rw [if_pos hq, if_neg (by decide), if_neg fun h => h.2 hq]
    rfl
  · have hlt := (lastStart_spec (f := f) (pos_of_prevOf_ne hq)).1
    -- the shortest token has one byte, so every stretch that ends is long enough
    have hone : minTokenSize ≤ min maxTokenSize (m - lastStart f m) := by
      unfold minTokenSize maxTokenSize
      omega
    rw [if_neg hq, length_runBytes (Nat.le_of_lt hm), if_pos hone, if_pos ⟨hsame, hq⟩]
    rfl

/-- **One byte**: the run that it ends goes to `AddToken`. -/
theorem collectByte_spec {m : Nat} (hm : m < seed.size) {c c' : Collector} {tokens : List Token}
    (hc : Current seed f qCksum m c)
    (hout : collectByte qCksum false (seed.bytes.getD m 0) (f m) c = (c', tokens)) :
    Current seed f qCksum (m + 1) c' ∧
      (closedRuns f qCksum m).map (runBytes seed) ++ tokens.map Token.bytes
        = (closedRuns f qCksum (m + 1)).map (runBytes seed) := by
  obtain ⟨hprev, htoken⟩ := hc
  rw [Current, prevOf_succ, closedRuns_succ, List.map_append]
  -- the checksum of the byte says whether the stretch goes on
  by_cases hsame : f m = prevOf f qCksum m
  · rw [collectByte_of_eq (hsame.trans hprev.symm)] at hout
    obtain ⟨rfl, rfl⟩ := Prod.mk.inj hout
    rw [← hsame] at htoken
    exact ⟨⟨rfl, continue_token hm hsame htoken⟩, by rw [if_neg fun h => h.1 hsame]; rfl⟩
  · rw [collectByte_of_ne (hprev ▸ hsame)] at hout
    obtain ⟨rfl, rfl⟩ := Prod.mk.inj hout
    exact ⟨⟨rfl, start_token hm hsame⟩, by rw [ended_token hm hsame htoken]⟩

end Collector

/-! ## The stage -/

section Turns

variable (T : Nat → List UInt8 → UInt32) (pointedToken : List (List UInt8)) (seed : Block)
  (qCksum : UInt32)

/-- The checksum of the case that is executed for the first bit of byte `b`. -/
def flipCksum (b : Nat) : UInt32 := T (8 * b) (flipTrial seed (seedLen seed) 1 (8 * b)).case

/-- The bytes before `m` have been looked at: the runs that ended before are with `AddToken`, in
order, and the locals hold the one that has not. -/
def Collected (m : Nat) (c : Collector) (s : StageState) : Prop :=
  s.autoToken = s.added.foldl (addToken pointedToken) ⟨[], List.nodup_nil⟩ ∧
    s.added.map Token.bytes
      = (closedRuns (flipCksum T seed) qCksum m).map (runBytes seed) ∧
    Current seed (flipCksum T seed) qCksum m c

/-- Before turn `k`: these are the bytes whose first bit has been flipped. -/
def Collecting (k : Nat) (c : Collector) (s : StageState) : Prop :=
  s.trials.length = k ∧ Collected T pointedToken seed qCksum ((k + 7) / 8) c s

variable {T pointedToken seed qCksum}

/-- At the first bit of a byte the stage is never at the last bit of the file. -/
theorem not_atEnd {k : Nat} (hk : k < bitLen (seedLen seed)) (hmod : k % 8 = 0) :
    (UInt64.ofNat k == flipMax (seedLen seed) 1 1 - 1) = false := by
  have hbits : bitLen (seedLen seed) < 2 ^ 64 := UInt64.toNat_lt _
  have hmax : (flipMax (seedLen seed) 1 1).toNat = bitLen (seedLen seed) := by
    rw [flipMax, show ((1 : UInt8) - 1).toUInt64 = 0 from rfl, UInt64.sub_zero, bitLen]
  have hlast : (flipMax (seedLen seed) 1 1 - 1).toNat = bitLen (seedLen seed) - 1 := by
    rw [UInt64.toNat_sub_of_le _ _ (by rw [UInt64.le_iff_toNat_le, hmax, UInt64.toNat_one]; omega),
      hmax, UInt64.toNat_one]
  have hcur : (UInt64.ofNat k).toNat = k := UInt64.toNat_ofNat_of_lt (hk.trans hbits)
  -- the number of bits is a multiple of eight, so the last bit is never the first of a byte
  have hlen := bitLen_mod (seedLen seed)
  refine beq_eq_false_iff_ne.mpr fun h => ?_
  have heq := congrArg UInt64.toNat h
  rw [hcur, hlast] at heq
  omega

/-- The bytes after the turn at the first bit of byte `m`. -/
theorem collected_succ {m : Nat} (hm : m < seed.size) {c c' : Collector} {tokens : List Token}
    (hout : collectByte qCksum false (seed.bytes.getD m 0) (flipCksum T seed m) c = (c', tokens))
    {s : StageState} (hs : Collected T pointedToken seed qCksum m c s) :
    Collected T pointedToken seed qCksum (m + 1) c' { s with
      autoToken := tokens.foldl (addToken pointedToken) s.autoToken
      added := s.added ++ tokens } := by
  obtain ⟨hauto, hadded, hcurrent⟩ := hs
  obtain ⟨hnext, hruns⟩ := collectByte_spec hm hcurrent hout
  refine ⟨?_, ?_, hnext⟩
  · rw [hauto, ← List.foldl_append]
  · rw [List.map_append, hadded, hruns]

theorem toNat_cur {k : Nat} (hk : k < bitLen (seedLen seed)) : (UInt64.ofNat k).toNat = k :=
  UInt64.toNat_ofNat_of_lt (hk.trans (UInt64.toNat_lt _))

/-- The execution in turn `k`. -/
theorem collecting_flip {k : Nat} (hk : k < bitLen (seedLen seed)) (c : Collector) :
    StageLogs (calm T) (Holds seed.bytes (Collecting T pointedToken seed qCksum k c))
      (flipAndBack (calm T) (seedLen seed) 1 (UInt64.ofNat k))
      (fun cksum => Holds seed.bytes fun s =>
        cksum = T k (flipTrial seed (seedLen seed) 1 k).case ∧ s.trials.length = k + 1 ∧
          Collected T pointedToken seed qCksum ((k + 7) / 8) c s)
      [flipTrial seed (seedLen seed) 1 k] := by
  have hcur := toNat_cur hk
  have htrial : flipTrial seed (seedLen seed) 1 k
      = flipTrial seed (seedLen seed) (1 : UInt8).toNat (UInt64.ofNat k).toNat := by rw [hcur]; rfl
  rw [htrial]
  refine flipAndBack_logs (fun _ _ h => h) (fun _ _ _ h => h) (toNat_seedLen seed) ?_ ?_ ?_
  · rw [hcur]
    exact Nat.le_trans hk (bitLen_seedLen_le seed)
  · rw [hcur]
    exact Nat.lt_of_le_of_lt hk (UInt64.toNat_lt _)
  · rintro s ⟨hcount, hs⟩
    rw [hcount]
    refine ⟨rfl, ?_, hs⟩
    show (s.trials ++ [_]).length = k + 1
    rw [List.length_append, List.length_singleton, hcount]

/-- What the turn at the first bit of byte `m` does after the execution. -/
theorem collecting_byte {m : Nat} (hm : 8 * m < bitLen (seedLen seed)) (c : Collector) :
    StageLogs (calm T)
      (Holds seed.bytes fun s => s.trials.length = 8 * m + 1 ∧
        Collected T pointedToken seed qCksum m c s)
      (collectAt pointedToken qCksum (flipMax (seedLen seed) 1 1) (UInt64.ofNat (8 * m))
        (flipCksum T seed m) c)
      (fun c => Holds seed.bytes (Collecting T pointedToken seed qCksum (8 * m + 1) c)) [] := by
  have hcur := toNat_cur hm
  have hsize := bitLen_seedLen_le seed
  generalize hout : collectByte qCksum false (seed.bytes.getD m 0) (flipCksum T seed m) c = out
  obtain ⟨c', tokens⟩ := out
  -- the flag for the end of the file is never set at these turns
  have hout' : collectByte qCksum (UInt64.ofNat (8 * m) == flipMax (seedLen seed) 1 1 - 1)
      (seed.bytes.getD ((UInt64.ofNat (8 * m)).toNat / 8) 0) (flipCksum T seed m) c
        = (c', tokens) := by
    rw [not_atEnd hm (Nat.mul_mod_right 8 m), hcur, Nat.mul_div_cancel_left m (by decide)]
    exact hout
  refine collectAt_logs c (by omega) hout' fun s hs => ⟨hs.1, ?_⟩
  rw [show (8 * m + 1 + 7) / 8 = m + 1 by omega]
  exact collected_succ (by omega) hout hs.2

/-- **One turn** of the stage 1/1. -/
theorem collecting_turn {k : Nat} (hk : k < bitLen (seedLen seed)) (c : Collector) :
    StageLogs (calm T) (Holds seed.bytes (Collecting T pointedToken seed qCksum k c))
      (bitFlipTurn (calm T) pointedToken (seedLen seed) 1 1 qCksum (flipMax (seedLen seed) 1 1)
        (UInt64.ofNat k) c)
      (fun c => Holds seed.bytes (Collecting T pointedToken seed qCksum (k + 1) c))
      [flipTrial seed (seedLen seed) 1 k] := by
  have hmod : UInt64.ofNat k % 8 = 0 ↔ k % 8 = 0 := by
    rw [← UInt64.toNat_inj, UInt64.toNat_mod, toNat_cur hk]
    rfl
  refine (collecting_flip hk c).after fun cksum => ?_
  rw [learn, if_pos ⟨rfl, rfl⟩]
  -- the collector looks at the first bit of a byte only
  by_cases hfirst : k % 8 = 0
  · rw [if_pos (hmod.mpr hfirst)]
    obtain ⟨m, rfl⟩ := Nat.dvd_of_mod_eq_zero hfirst
    rw [show (8 * m + 7) / 8 = m by omega]
    refine logs_of_start fun s hs => ?_
    obtain ⟨-, rfl, -⟩ := hs
    exact (collecting_byte hk c).mono (fun s hs => ⟨hs.1, hs.2.2⟩) fun c s hs => hs
  · rw [if_neg (mt hmod.mp hfirst)]
    refine logs_pure fun s hs => ⟨hs.1, hs.2.2.1, ?_⟩
    rw [show (k + 1 + 7) / 8 = (k + 7) / 8 by omega]
    exact hs.2.2.2

/-- **The whole stage**: the runs that ended are with `AddToken`. -/
theorem bitFlip_collects (T : Nat → List UInt8 → UInt32) (pointedToken : List (List UInt8))
    (seed : Block) (useful : List Bool) (qCksum : UInt32) :
    ∃ c, Collected T pointedToken seed qCksum (bitLen (seedLen seed) / 8) c
      ((bitFlip (calm T) pointedToken (seedLen seed) 1 1 qCksum).exec (.start seed useful)).2 := by
  have hturns : flipTurns (seedLen seed) (1 : UInt8).toNat (1 : UInt8).toNat
      = bitLen (seedLen seed) := Nat.div_one _
  have hturn : ∀ k, k < bitLen (seedLen seed) → ∀ c, StageLogs (calm T)
      (Holds seed.bytes (Collecting T pointedToken seed qCksum k c))
      (bitFlipTurn (calm T) pointedToken (seedLen seed) 1 1 qCksum (flipMax (seedLen seed) 1 1)
        (UInt64.ofNat (k * (1 : UInt8).toNat)) c)
      (fun c => Holds seed.bytes (Collecting T pointedToken seed qCksum (k + 1) c))
      [flipTrial seed (seedLen seed) 1 k] := by
    intro k hk c
    rw [show k * (1 : UInt8).toNat = k from Nat.mul_one k]
    exact collecting_turn hk c
  have hstart : Holds seed.bytes (Collecting T pointedToken seed qCksum 0 ⟨qCksum, .empty⟩)
      (.start seed useful) := ⟨rfl, rfl, rfl, rfl, rfl, (if_pos rfl).symm⟩
  have hloop := logs_forRange
    (fun k c => Holds seed.bytes (Collecting T pointedToken seed qCksum k c))
    (fun k => [flipTrial seed (seedLen seed) 1 k]) hturn ⟨qCksum, .empty⟩
  -- all bytes whose first bit was flipped are done
  have hbytes : (bitLen (seedLen seed) + 7) / 8 = bitLen (seedLen seed) / 8 := by
    have hmod := bitLen_mod (seedLen seed)
    omega
  have hstage : StageLogs (calm T)
      (Holds seed.bytes (Collecting T pointedToken seed qCksum 0 ⟨qCksum, .empty⟩))
      (bitFlip (calm T) pointedToken (seedLen seed) 1 1 qCksum)
      (fun _ s => ∃ c, Collected T pointedToken seed qCksum (bitLen (seedLen seed) / 8) c s)
      ((List.range (bitLen (seedLen seed))).flatMap
        fun k => [flipTrial seed (seedLen seed) 1 k]) := by
    rw [bitFlip_eq pointedToken qCksum (seedLen seed) (by decide), hturns]
    exact hloop.after fun c => logs_pure fun s hs => ⟨c, hbytes ▸ hs.2.2⟩
  obtain ⟨_, s, hrun, hs, -⟩ := hstage.returns (not_unitFailed_calm T) hstart
  rw [hrun]
  exact hs

end Turns

/-! ## What is discovered -/

/-- The tokens are those of the maximal runs, in order. -/
def Discovered (seed : Block) (f : Nat → UInt32) (qCksum : UInt32) (added : List Token) : Prop :=
  ∃ runs : List (Nat × Nat), (∀ r, r ∈ runs ↔ MaxRun f qCksum seed.size r.1 r.2) ∧
    (runs.Pairwise fun r r' => r.2 ≤ r'.1) ∧ added.map Token.bytes = runs.map (runBytes seed)

/-- **Token discovery**: `AddToken` gets the tokens of the maximal runs, each once and in
order, just if the flip in the last byte that is visited, and in those that are not,
does not change the trace. -/
theorem token_discovery_iff (T : Nat → List UInt8 → UInt32) (pointedToken : List (List UInt8))
    (seed : Block) (useful : List Bool) (qCksum : UInt32) :
    let s := ((bitFlip (calm T) pointedToken (seedLen seed) 1 1 qCksum).exec
      (.start seed useful)).2
    s.autoToken = s.added.foldl (addToken pointedToken) ⟨[], List.nodup_nil⟩ ∧
      (Discovered seed (flipCksum T seed) qCksum s.added ↔
        ∀ b, b < seed.size → bitLen (seedLen seed) / 8 ≤ b + 1 →
          flipCksum T seed b = qCksum) := by
  intro s
  obtain ⟨c, hauto, hadded, -⟩ := bitFlip_collects T pointedToken seed useful qCksum
  have hle : bitLen (seedLen seed) / 8 ≤ seed.size := by
    have hsize := bitLen_seedLen_le seed
    omega
  refine ⟨hauto, ?_, fun hlast => ?_⟩
  · rintro ⟨runs, hruns, hordered, heq⟩ b hb hlate
    by_contra hne
    obtain ⟨a, e, hrun, hbe⟩ := exists_maxRun hb hne
    have hlen : runs.length = (closedRuns (flipCksum T seed) qCksum
        (bitLen (seedLen seed) / 8)).length := by
      rw [← List.length_map (runBytes seed), ← heq, hadded, List.length_map]
    have hearly := lt_of_length_eq hle hruns hlen ((hruns (a, e)).mpr hrun)
    dsimp only at hearly
    omega
  · refine ⟨closedRuns (flipCksum T seed) qCksum (bitLen (seedLen seed) / 8), fun r => ?_,
      closedRuns_ordered _, hadded⟩
    rw [mem_closedRuns hle, and_iff_left_iff_imp]
    rintro ⟨hlt, hend, hconst, hne, -, -⟩
    -- the last byte of a run is off the background, so it is an early one
    by_contra hlate
    refine hne ?_
    rw [← hconst (r.2 - 1) (by omega) (by omega)]
    exact hlast (r.2 - 1) (by omega) (by omega)

/-- One byte. -/
def oneByte : Block := ⟨[0x41], by decide⟩

/-- Every flip leads to another trace than that of the seed, so the byte is a token. It is
the last one of the file and is lost. -/
theorem last_run_lost :
    MaxRun (flipCksum (fun _ _ => 1) oneByte) 0 oneByte.size 0 1 ∧
    runBytes oneByte (0, 1) = [0x41] ∧
    ((bitFlip (calm fun _ _ => 1) [] (seedLen oneByte) 1 1 0).exec
      (.start oneByte [false])).2.added = [] ∧
    ¬Discovered oneByte (flipCksum (fun _ _ => 1) oneByte) 0
      ((bitFlip (calm fun _ _ => 1) [] (seedLen oneByte) 1 1 0).exec
        (.start oneByte [false])).2.added := by
  have hrun : MaxRun (flipCksum (fun _ _ => 1) oneByte) 0 oneByte.size 0 1 :=
    ⟨by decide, by decide, fun _ _ _ => rfl, by decide, .inl rfl, .inl rfl⟩
  have hnone : ((bitFlip (calm fun _ _ => 1) [] (seedLen oneByte) 1 1 0).exec
      (.start oneByte [false])).2.added = [] := by
    decide +kernel
  refine ⟨hrun, by decide, hnone, ?_⟩
  -- the only token of the file would have to be there, and nothing was added
  rintro ⟨runs, hruns, -, heq⟩
  rw [hnone, List.map_nil, eq_comm, List.map_eq_nil_iff] at heq
  have hmem := (hruns (0, 1)).mpr hrun
  rw [heq] at hmem
  cases hmem

end DistFuzz.Fuzzer
