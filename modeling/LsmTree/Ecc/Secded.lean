import LsmTree.Theory.Codec

/-! The parity bytes that correct one flipped bit in each 64-bit word of a block and detect two. -/
namespace LsmTree.Secded

open Codec List Nat

def xorAll (l : List ℕ) : ℕ := l.foldr (· ^^^ ·) 0

def countOnes (w n : ℕ) : ℕ := (List.range w).countP n.testBit

section Code

/-- The first 64 bytes whose weight is odd and at least three. -/
def dataCols : List ℕ :=
  ((List.range 256).filter fun b => countOnes 8 b % 2 == 1 && decide (3 ≤ countOnes 8 b)).take 64

def col (i : ℕ) : ℕ := dataCols.getD i 0

def table (lane b : ℕ) : ℕ :=
  xorAll ((List.range 8).map fun bit => if b.testBit bit then col (lane * 8 + bit) else 0)

/-- `check_byte`: the partial checks of the eight bytes. -/
def checkByte (word : ℕ) : ℕ :=
  xorAll ((List.range 8).map fun lane => table lane (word / 2 ^ (lane * 8) % 2 ^ 8))

inductive SecdedOutcome where
  | clean
  | corrected
  | uncorrectable
  deriving DecidableEq, Repr

/-- `decode_word`, with the word it leaves behind. -/
def decodeWord (word parity : ℕ) : SecdedOutcome × ℕ :=
  let syndrome := parity ^^^ checkByte word
  if syndrome = 0 then (.clean, word)
  else if countOnes 8 syndrome = 1 then (.corrected, word)
  else if countOnes 8 syndrome % 2 = 1 then
    match dataCols.findIdx? (· == syndrome) with
    | some bit => (.corrected, word ^^^ 2 ^ bit)
    | none => (.uncorrectable, word)
  else (.uncorrectable, word)

end Code

section Blocks

def padded (chunk : Bytes) : Bytes := chunk ++ List.replicate (8 - chunk.length) 0

def word (chunk : Bytes) : ℕ := ((decodeLe 8 (padded chunk)).map (·.1)).getD 0

def blockParityLen (payloadLen : ℕ) : ℕ := (payloadLen + 7) / 8

def chunks : ℕ → Bytes → List Bytes
  | 0, _ => []
  | n + 1, payload => payload.take 8 :: chunks n (payload.drop 8)

def encodeBlockParity (payload : Bytes) : Bytes :=
  (chunks (blockParityLen payload.length) payload).map fun chunk =>
    Fin.ofNat 256 (checkByte (word chunk))

/-- The loop of `try_correct_block` over the chunks of the payload. -/
def correctWords : Bytes → Bytes → SecdedOutcome × Bytes
  | [], payload => (.clean, payload)
  | p :: parity, payload =>
    if payload = [] then (.clean, [])
    else
      match decodeWord (word (payload.take 8)) p.val with
      | (.uncorrectable, _) => (.uncorrectable, payload)
      | (.clean, _) =>
        let rest := correctWords parity (payload.drop 8)
        (rest.1, payload.take 8 ++ rest.2)
      | (.corrected, repaired) =>
        let rest := correctWords parity (payload.drop 8)
        (if rest.1 = .uncorrectable then .uncorrectable else .corrected,
          (encodeLe 8 repaired).take (payload.take 8).length ++ rest.2)

def tryCorrectBlock (payload parity : Bytes) : SecdedOutcome × Bytes :=
  if parity.length < blockParityLen payload.length then (.uncorrectable, payload)
  else correctWords parity payload

end Blocks

section Xor

variable {l l' : List ℕ}

theorem xorAll_append : xorAll (l ++ l') = xorAll l ^^^ xorAll l' := by
  induction l with
  | nil => exact (zero_xor _).symm
  | cons a l ih => exact (congrArg (a ^^^ ·) ih).trans (Nat.xor_assoc ..).symm

theorem xorAll_map_xor (f g : ℕ → ℕ) :
    xorAll (l.map fun i => f i ^^^ g i) = xorAll (l.map f) ^^^ xorAll (l.map g) := by
  induction l with
  | nil => exact (Nat.xor_self 0).symm
  | cons a l ih =>
    change f a ^^^ g a ^^^ xorAll (l.map fun i => f i ^^^ g i) = _
    rw [ih, Nat.xor_assoc, Nat.xor_left_comm (g a), ← Nat.xor_assoc]
    rfl

theorem xorAll_flatMap (f : ℕ → List ℕ) : xorAll (l.flatMap f) = xorAll (l.map (xorAll ∘ f)) := by
  induction l with
  | nil => rfl
  | cons a l ih =>
    rw [flatMap_cons, xorAll_append, ih]
    rfl

theorem testBit_xorAll (hl : l.Nodup) (j : ℕ) :
    (xorAll (l.map (2 ^ ·))).testBit j = decide (j ∈ l) := by
  induction l with
  | nil => exact zero_testBit j
  | cons a l ih =>
    obtain ⟨ha, hl⟩ := nodup_cons.1 hl
    change (2 ^ a ^^^ xorAll (l.map (2 ^ ·))).testBit j = _
    rw [testBit_xor, ih hl, testBit_two_pow]
    by_cases haj : a = j
    · subst haj
      simp [ha]
    · simp [haj, Ne.symm haj]

theorem exists_bits {w n : ℕ} (h : n < 2 ^ w) : ∃ l : List ℕ, l.Nodup ∧ (∀ i ∈ l, i < w) ∧
    l.length = countOnes w n ∧ n = xorAll (l.map (2 ^ ·)) := by
  refine ⟨(List.range w).filter n.testBit, nodup_range.filter _, ?_, ?_, ?_⟩
  · exact fun i hi => mem_range.1 (mem_filter.1 hi).1
  · exact countP_eq_length_filter.symm
  · apply eq_of_testBit_eq
    intro j
    rw [testBit_xorAll (nodup_range.filter _)]
    by_cases hj : j < w
    · simp [hj]
    · have hbit : n.testBit j = false :=
        Nat.testBit_lt_two_pow (h.trans_le (Nat.pow_le_pow_right (by decide) (not_lt.1 hj)))
      simp [hj, hbit]

theorem countOnes_xor (w a b : ℕ) :
    countOnes w (a ^^^ b) % 2 = (countOnes w a + countOnes w b) % 2 := by
  induction w with
  | zero => rfl
  | succ w ih =>
    simp only [countOnes, range_succ, countP_append, countP_singleton,
      testBit_xor] at ih ⊢
    cases a.testBit w <;> cases b.testBit w <;> simp <;> omega

end Xor

section Columns

theorem checkByte_eq (word : ℕ) : checkByte word =
    xorAll ((List.range 64).map fun i => if word.testBit i then col i else 0) := by
  have hrange : List.range 64 =
      (List.range 8).flatMap fun lane => (List.range 8).map (lane * 8 + ·) := by decide
  rw [hrange, map_flatMap, xorAll_flatMap, checkByte]
  congr 1
  apply map_congr_left
  intro lane _
  rw [table, Function.comp_apply, map_map]
  congr 1
  apply map_congr_left
  intro bit hbit
  rw [testBit_mod_two_pow, testBit_div_two_pow, add_comm]
  simp [mem_range.1 hbit]

theorem checkByte_xor (a b : ℕ) : checkByte (a ^^^ b) = checkByte a ^^^ checkByte b := by
  simp only [checkByte_eq, ← xorAll_map_xor, testBit_xor]
  congr 1
  apply map_congr_left
  intro i _
  cases a.testBit i <;> cases b.testBit i <;> simp

theorem checkByte_two_pow : ∀ i < 64, checkByte (2 ^ i) = col i := by decide +kernel

theorem checkByte_xorAll {l : List ℕ} (hl : ∀ i ∈ l, i < 64) :
    checkByte (xorAll (l.map (2 ^ ·))) = xorAll (l.map col) := by
  induction l with
  | nil => decide +kernel
  | cons i l ih =>
    obtain ⟨hi, hl⟩ := forall_mem_cons.1 hl
    change checkByte (2 ^ i ^^^ xorAll (l.map (2 ^ ·))) = _
    rw [checkByte_xor, checkByte_two_pow i hi, ih hl]
    rfl

theorem checkByte_lt (word : ℕ) : checkByte word < 2 ^ 8 := by
  have hcol : ∀ i < 64, col i < 2 ^ 8 := by decide +kernel
  have hall : ∀ l : List ℕ, (∀ i ∈ l, i < 64) →
      xorAll (l.map fun i => if word.testBit i then col i else 0) < 2 ^ 8 := by
    intro l hl
    induction l with
    | nil => exact Nat.two_pow_pos 8
    | cons i l ih =>
      obtain ⟨hi, hl⟩ := forall_mem_cons.1 hl
      refine xor_lt_two_pow ?_ (ih hl)
      dsimp only
      split
      · exact hcol i hi
      · decide
  rw [checkByte_eq]
  exact hall _ fun i => mem_range.1

/-- The columns of the parity-check matrix: of the data bits, then of the parity bits. -/
def column (i : ℕ) : ℕ := if i < 64 then col i else 2 ^ (i - 64)

/-- What `decode_word` makes of a syndrome, with the bit of the word to flip. -/
def located (syndrome : ℕ) : SecdedOutcome × ℕ :=
  if syndrome = 0 then (.clean, 0)
  else if countOnes 8 syndrome = 1 then (.corrected, 0)
  else if countOnes 8 syndrome % 2 = 1 then
    match dataCols.findIdx? (· == syndrome) with
    | some bit => (.corrected, 2 ^ bit)
    | none => (.uncorrectable, 0)
  else (.uncorrectable, 0)

theorem decodeWord_eq (word parity : ℕ) :
    decodeWord word parity = ((located (parity ^^^ checkByte word)).1,
      word ^^^ (located (parity ^^^ checkByte word)).2) := by
  simp only [decodeWord, located]
  split_ifs
  · simp
  · simp
  · split <;> simp
  · simp

theorem located_column : ∀ i < 72, located (column i) =
    (.corrected, if i < 64 then 2 ^ i else 0) := by decide +kernel

theorem column_odd : ∀ i < 72, countOnes 8 (column i) % 2 = 1 := by decide +kernel

theorem column_injective {i j : ℕ} (hi : i < 72) (hj : j < 72) (h : column i = column j) :
    i = j := by
  have heq := (located_column i hi).symm.trans ((congrArg located h).trans (located_column j hj))
  have hpow := congrArg Prod.snd heq
  dsimp only at hpow
  have hpos : ∀ n, 0 < 2 ^ n := fun n => Nat.two_pow_pos n
  split_ifs at hpow with hi64 hj64 hj64
  · exact Nat.pow_right_injective le_rfl hpow
  · exact absurd hpow (hpos i).ne'
  · exact absurd hpow.symm (hpos j).ne'
  · simp only [column, hi64, hj64, if_false] at h
    have := Nat.pow_right_injective le_rfl h
    omega

theorem located_two {i j : ℕ} (hi : i < 72) (hj : j < 72) (hij : i ≠ j) :
    located (column i ^^^ column j) = (.uncorrectable, 0) := by
  have hzero : column i ^^^ column j ≠ 0 := fun h =>
    hij (column_injective hi hj (Nat.xor_eq_zero_iff.1 h))
  have heven := countOnes_xor 8 (column i) (column j)
  have hodd := column_odd i hi
  have hodd' := column_odd j hj
  rw [located, if_neg hzero, if_neg (by omega), if_neg (by omega)]

end Columns

section Words

variable {w w' p' : ℕ} (hw : w < 2 ^ 64) (hw' : w' < 2 ^ 64) (hp' : p' < 2 ^ 8)

def flips (w w' p p' : ℕ) : ℕ := countOnes 64 (w ^^^ w') + countOnes 8 (p ^^^ p')

include hw hw' hp'

theorem syndrome_eq : ∃ l : List ℕ, l.Nodup ∧ (∀ i ∈ l, i < 72) ∧
    l.length = flips w w' (checkByte w) p' ∧ p' ^^^ checkByte w' = xorAll (l.map column) ∧
    w ^^^ w' = xorAll ((l.filter (· < 64)).map (2 ^ ·)) := by
  obtain ⟨le, hle, hlt, hlen, he⟩ := exists_bits (xor_lt_two_pow hw hw')
  obtain ⟨lf, hlf, hlt', hlen', hf⟩ := exists_bits (xor_lt_two_pow (checkByte_lt w) hp')
  refine ⟨le ++ lf.map (64 + ·), ?_, ?_, ?_, ?_, ?_⟩
  · refine hle.append (hlf.map fun a b h => add_left_cancel h) ?_
    intro i hi hi'
    obtain ⟨j, -, rfl⟩ := mem_map.1 hi'
    have := hlt _ hi
    omega
  · intro i hi
    rcases mem_append.1 hi with hi | hi
    · exact (hlt i hi).trans (by decide)
    · obtain ⟨j, hj, rfl⟩ := mem_map.1 hi
      have := hlt' j hj
      omega
  · rw [length_append, length_map, hlen, hlen', flips]
  · have hdata : le.map column = le.map col :=
      map_congr_left fun i hi => if_pos (hlt i hi)
    have hparity : (lf.map (64 + ·)).map column = lf.map (2 ^ ·) := by
      rw [map_map]
      apply map_congr_left
      intro i _
      simp [column]
    rw [map_append, xorAll_append, hdata, hparity, ← checkByte_xorAll hlt, ← he, ← hf,
      checkByte_xor, Nat.xor_comm (checkByte w), Nat.xor_assoc, Nat.xor_xor_cancel_left, Nat.xor_comm]
  · have hfilter : (le ++ lf.map (64 + ·)).filter (· < 64) = le := by
      rw [filter_append, filter_eq_self.2 fun i hi => decide_eq_true (hlt i hi),
        filter_eq_nil_iff.2, append_nil]
      intro i hi
      obtain ⟨j, -, rfl⟩ := mem_map.1 hi
      simp
    rw [hfilter, he]

theorem decodeWord_corrects (h : flips w w' (checkByte w) p' ≤ 1) : ∃ outcome,
    decodeWord w' p' = (outcome, w) ∧ outcome ≠ .uncorrectable ∧ (outcome = .clean → w' = w) := by
  obtain ⟨l, -, hlt, hlen, hsyn, hbits⟩ := syndrome_eq hw hw' hp'
  have hword : w' ^^^ (w ^^^ w') = w := by
    rw [Nat.xor_comm w w', Nat.xor_xor_cancel_left]
  have hclean : located 0 = (.clean, 0) := rfl
  rw [decodeWord_eq, hsyn]
  match l, hlen, hlt, hbits with
  | [], _, _, hbits =>
    have heq : w' = w := (Nat.xor_eq_zero_iff.1 hbits).symm
    refine ⟨.clean, ?_, nofun, fun _ => heq⟩
    change ((located 0).1, w' ^^^ (located 0).2) = _
    rw [hclean, heq, Nat.xor_zero]
  | [i], _, hlt, hbits =>
    have hcol : xorAll ([i].map column) = column i := Nat.xor_zero _
    have hflip : (if i < 64 then 2 ^ i else 0) = w ^^^ w' := by
      rw [hbits]
      by_cases hi : i < 64
      · rw [if_pos hi, filter_cons_of_pos (by simpa using hi)]
        exact (Nat.xor_zero _).symm
      · rw [if_neg hi, filter_cons_of_neg (by simpa using hi)]
        rfl
    rw [hcol, located_column i (hlt i (mem_singleton_self i)), hflip, hword]
    exact ⟨.corrected, rfl, nofun, nofun⟩
  | _ :: _ :: _, hlen, _, _ =>
    rw [length_cons, length_cons] at hlen
    omega

theorem decodeWord_detects (h : flips w w' (checkByte w) p' = 2) :
    (decodeWord w' p').1 = .uncorrectable := by
  obtain ⟨l, hnodup, hlt, hlen, hsyn, -⟩ := syndrome_eq hw hw' hp'
  obtain ⟨i, j, rfl⟩ := length_eq_two.1 (hlen.trans h)
  have hij : i ≠ j := by simpa using hnodup
  have hcols : xorAll ([i, j].map column) = column i ^^^ column j :=
    congrArg (column i ^^^ ·) (Nat.xor_zero _)
  rw [decodeWord_eq, hsyn, hcols, located_two (hlt i (by simp)) (hlt j (by simp)) hij]

end Words

section Blocks

theorem decodeLe_of_length {n : ℕ} {bytes : Bytes} (h : n ≤ bytes.length) :
    ∃ r, decodeLe n bytes = some r := by
  induction n generalizing bytes with
  | zero => exact ⟨_, rfl⟩
  | succ n ih =>
    cases bytes with
    | nil => cases h
    | cons b bytes =>
      obtain ⟨r, hr⟩ := ih (le_of_succ_le_succ h)
      exact ⟨_, by rw [decodeLe, hr]; rfl⟩

theorem encodeLe_word {chunk : Bytes} (h : chunk.length ≤ 8) :
    encodeLe 8 (word chunk) = padded chunk ∧ word chunk < 2 ^ 64 := by
  have hlen : (padded chunk).length = 8 := by
    rw [padded, length_append, length_replicate]
    omega
  obtain ⟨⟨x, rest⟩, hdec⟩ := decodeLe_of_length hlen.ge
  obtain ⟨heq, hlt⟩ := decodeLe_eq_some hdec
  have hrest : rest = [] := by
    have := congrArg List.length heq
    rw [hlen, length_append, encodeLe_length] at this
    exact length_eq_zero_iff.1 (by omega)
  have hword : word chunk = x := by rw [word, hdec]; rfl
  rw [hrest, append_nil] at heq
  exact ⟨by rw [hword, heq], hword ▸ hlt⟩

theorem take_encodeLe_word {chunk : Bytes} (h : chunk.length ≤ 8) :
    (encodeLe 8 (word chunk)).take chunk.length = chunk := by
  rw [(encodeLe_word h).1, padded, take_left]

def flipsAt (payload payload' parity parity' : Bytes) (i : ℕ) : ℕ :=
  flips (word ((payload.drop (8 * i)).take 8)) (word ((payload'.drop (8 * i)).take 8))
    ((parity[i]?.map Fin.val).getD 0) ((parity'[i]?.map Fin.val).getD 0)

theorem encodeBlockParity_cons {payload : Bytes} (h : payload ≠ []) :
    encodeBlockParity payload =
      Fin.ofNat 256 (checkByte (word (payload.take 8))) :: encodeBlockParity (payload.drop 8) := by
  have hpos := length_pos_of_ne_nil h
  have hlen : blockParityLen payload.length = blockParityLen (payload.drop 8).length + 1 := by
    rw [blockParityLen, blockParityLen, length_drop]
    omega
  rw [encodeBlockParity, hlen]
  rfl

theorem flipsAt_succ (payload payload' : Bytes) (c p : Fin 256) (cs ps : Bytes) (i : ℕ) :
    flipsAt payload payload' (c :: cs) (p :: ps) (i + 1) =
      flipsAt (payload.drop 8) (payload'.drop 8) cs ps i := by
  rw [flipsAt, flipsAt, drop_drop, drop_drop, mul_succ, add_comm]
  rfl

theorem flipsAt_zero (payload payload' : Bytes) (p : Fin 256) (cs ps : Bytes) :
    flipsAt payload payload' (Fin.ofNat 256 (checkByte (word (payload.take 8))) :: cs) (p :: ps) 0 =
      flips (word (payload.take 8)) (word (payload'.take 8)) (checkByte (word (payload.take 8)))
        p.val := by
  rw [flipsAt]
  congr 1
  exact mod_eq_of_lt (checkByte_lt _)

variable {payload payload' parity' : Bytes}

theorem length_take_le (l : Bytes) : (l.take 8).length ≤ 8 := by
  rw [length_take]
  exact min_le_left _ _

theorem correctWords_corrects (hlen : payload'.length = payload.length)
    (hpar : parity'.length = blockParityLen payload.length)
    (h : ∀ i < parity'.length, flipsAt payload payload' (encodeBlockParity payload) parity' i ≤ 1) :
    ∃ outcome, correctWords parity' payload' = (outcome, payload) ∧ outcome ≠ .uncorrectable ∧
      (outcome = .clean → payload' = payload) := by
  induction parity' generalizing payload payload' with
  | nil =>
    rw [length_nil, blockParityLen] at hpar
    obtain rfl : payload = [] := length_eq_zero_iff.1 (by omega)
    obtain rfl : payload' = [] := length_eq_zero_iff.1 hlen
    exact ⟨.clean, rfl, nofun, fun _ => rfl⟩
  | cons p ps ih =>
    rw [length_cons, blockParityLen] at hpar
    have hne : payload ≠ [] := by
      rintro rfl
      simp at hpar
    have hne' : payload' ≠ [] := by
      rintro rfl
      exact hne (length_eq_zero_iff.1 hlen.symm)
    have htake : (payload'.take 8).length = (payload.take 8).length := by
      rw [length_take, length_take, hlen]
    rw [encodeBlockParity_cons hne] at h
    obtain ⟨rest, hrest, hgood, hclean⟩ := @ih (payload.drop 8) (payload'.drop 8)
      (by rw [length_drop, length_drop, hlen])
      (by rw [blockParityLen, length_drop]; omega)
      (fun i hi => flipsAt_succ payload payload' _ p _ ps i ▸ h (i + 1) (succ_lt_succ hi))
    obtain ⟨outcome, hword, hgood', hclean'⟩ := decodeWord_corrects
      (encodeLe_word (length_take_le payload)).2 (encodeLe_word (length_take_le payload')).2 p.isLt
      (flipsAt_zero payload payload' p _ ps ▸ h 0 (succ_pos _))
    have hback := take_encodeLe_word (length_take_le payload)
    rw [correctWords, if_neg hne', hword, hrest]
    cases outcome with
    | uncorrectable => exact absurd rfl hgood'
    | clean =>
      have hfront : payload'.take 8 = payload.take 8 := by
        rw [← take_encodeLe_word (length_take_le payload'), hclean' rfl, htake, hback]
      refine ⟨rest, ?_, hgood, fun hc => ?_⟩
      · simp only [hfront, take_append_drop]
      · rw [← take_append_drop 8 payload', hfront, hclean hc, take_append_drop]
    | corrected =>
      refine ⟨.corrected, ?_, nofun, nofun⟩
      simp only [if_neg hgood, htake, hback, take_append_drop]

theorem correctWords_detects (hlen : payload'.length = payload.length)
    (hpar : parity'.length = blockParityLen payload.length) {i : ℕ} (hi : i < parity'.length)
    (h : flipsAt payload payload' (encodeBlockParity payload) parity' i = 2) :
    (correctWords parity' payload').1 = .uncorrectable := by
  induction parity' generalizing payload payload' i with
  | nil => cases hi
  | cons p ps ih =>
    rw [length_cons, blockParityLen] at hpar
    have hne : payload ≠ [] := by
      rintro rfl
      simp at hpar
    have hne' : payload' ≠ [] := by
      rintro rfl
      exact hne (length_eq_zero_iff.1 hlen.symm)
    rw [encodeBlockParity_cons hne] at h
    rw [correctWords, if_neg hne']
    cases i with
    | zero =>
      rw [flipsAt_zero] at h
      have hword := decodeWord_detects (encodeLe_word (length_take_le payload)).2
        (encodeLe_word (length_take_le payload')).2 p.isLt h
      split <;> simp_all
    | succ i =>
      rw [flipsAt_succ] at h
      have hrest := ih (by rw [length_drop, length_drop, hlen])
        (by rw [blockParityLen, length_drop]; omega) (lt_of_succ_lt_succ hi) h
      split <;> simp [hrest]

/-- A block with at most one flipped bit in each codeword is restored, and one with a codeword of
two flipped bits is refused. -/
theorem tryCorrectBlock_spec (payload payload' parity' : Bytes)
    (hlen : payload'.length = payload.length)
    (hpar : parity'.length = (encodeBlockParity payload).length) :
    ((∀ i < parity'.length, flipsAt payload payload' (encodeBlockParity payload) parity' i ≤ 1) →
      (tryCorrectBlock payload' parity').2 = payload ∧
        (tryCorrectBlock payload' parity').1 ≠ .uncorrectable ∧
        ((tryCorrectBlock payload' parity').1 = .clean → payload' = payload)) ∧
    ((∃ i < parity'.length, flipsAt payload payload' (encodeBlockParity payload) parity' i = 2) →
      (tryCorrectBlock payload' parity').1 = .uncorrectable) := by
  have hchunks : ∀ n l, (chunks n l).length = n := by
    intro n
    induction n with
    | zero => exact fun _ => rfl
    | succ n ih => exact fun l => congrArg (· + 1) (ih _)
  rw [encodeBlockParity, length_map, hchunks] at hpar
  rw [tryCorrectBlock, hlen, ← hpar, if_neg (lt_irrefl _)]
  constructor
  · intro h
    obtain ⟨outcome, heq, hgood, hclean⟩ := correctWords_corrects hlen hpar h
    rw [heq]
    exact ⟨rfl, hgood, hclean⟩
  · rintro ⟨i, hi, h⟩
    exact correctWords_detects hlen hpar hi h

def tenBytes : Bytes := [1, 2, 3, 4, 5, 6, 7, 8, 9, 10]

/-- Two codewords: a bit of each is flipped, then one bit of the first and two of the second. -/
theorem tenBytes_corrected :
    (tryCorrectBlock [0, 2, 3, 4, 5, 6, 7, 8, 9, 11] (encodeBlockParity tenBytes)).2 = tenBytes ∧
      (tryCorrectBlock [0, 2, 3, 4, 5, 6, 7, 8, 9, 9] (encodeBlockParity tenBytes)).1 =
        .uncorrectable := by
  constructor
  · exact ((tryCorrectBlock_spec tenBytes _ _ rfl rfl).1 (by decide +kernel)).1
  · exact (tryCorrectBlock_spec tenBytes [0, 2, 3, 4, 5, 6, 7, 8, 9, 9] _ rfl rfl).2
      ⟨1, by decide +kernel⟩

end Blocks

end LsmTree.Secded
