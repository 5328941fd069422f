import LsmTree.Theory.Codec
import LsmTree.Theory.IdMap

/-! The positional delete bitmap of a columnar segment. -/
namespace LsmTree

open Codec List

def chunkRows : ℕ := 2048

/-- `CHUNK_ROWS / 64` -/
def wordsPerChunk : ℕ := 32

/-- `WORDS_PER_CHUNK * 4` -/
def sparseMax : ℕ := 128

inductive Container where
  | sparse (offs : List ℕ)
  | dense (words : List (BitVec 64))
  deriving DecidableEq, Repr

namespace Container

def testWord (words : List (BitVec 64)) (off : ℕ) : Bool :=
  words[off / 64]?.any (·.getLsbD (off % 64))

def setWord (words : List (BitVec 64)) (off : ℕ) : List (BitVec 64) :=
  words.modify (off / 64) (· ||| 1#64 <<< (off % 64))

def contains : Container → ℕ → Bool
  | .sparse offs, off => decide (off ∈ offs)
  | .dense words, off => testWord words off

def densify (offs : List ℕ) : Container :=
  .dense (offs.foldl setWord (List.replicate wordsPerChunk 0))

def insert : Container → ℕ → Container
  | .sparse offs, off =>
    if off ∈ offs then .sparse offs
    else
      let offs := offs.orderedInsert (· ≤ ·) off
      if sparseMax < offs.length then densify offs else .sparse offs
  | .dense words, off => .dense (setWord words off)

def cardinality : Container → ℕ
  | .sparse offs => offs.length
  | .dense words => (words.map fun word => (List.range 64).countP word.getLsbD).sum

/-- What the decoder accepts, and all that a bitmap holds. -/
def WF : Container → Prop
  | .sparse offs => offs ≠ [] ∧ offs.length ≤ chunkRows ∧ (∀ off ∈ offs, off < chunkRows) ∧
      offs.Pairwise (· < ·)
  | .dense words => words.length = wordsPerChunk ∧ (dense words).cardinality ≠ 0

instance : (c : Container) → Decidable c.WF
  | .sparse offs => inferInstanceAs (Decidable (offs ≠ [] ∧ offs.length ≤ chunkRows ∧
      (∀ off ∈ offs, off < chunkRows) ∧ offs.Pairwise (· < ·)))
  | .dense words =>
    inferInstanceAs (Decidable (words.length = wordsPerChunk ∧ (dense words).cardinality ≠ 0))

section Bits

variable {words : List (BitVec 64)} {off : ℕ}

@[simp] theorem setWord_length (words : List (BitVec 64)) (off : ℕ) :
    (setWord words off).length = words.length := by simp [setWord]

theorem getLsbD_or_bit (word : BitVec 64) {i : ℕ} (hi : i < 64) (b : ℕ) :
    (word ||| 1#64 <<< b).getLsbD i = (decide (i = b) || word.getLsbD i) := by
  rw [BitVec.getLsbD_or, BitVec.getLsbD_shiftLeft, BitVec.getLsbD_one, Bool.or_comm]
  congr 1
  rw [Bool.eq_iff_iff]
  simp only [Bool.and_eq_true, Bool.not_eq_true', decide_eq_true_eq, decide_eq_false_iff_not]
  omega

theorem testWord_setWord (h : off / 64 < words.length) (off' : ℕ) :
    testWord (setWord words off) off' = (decide (off' = off) || testWord words off') := by
  rw [testWord, setWord, getElem?_modify]
  by_cases hword : off / 64 = off' / 64
  · rw [testWord, ← hword, getElem?_eq_getElem h]
    simp only [if_true, Option.map_eq_map, Option.map_some, Option.any_some]
    rw [getLsbD_or_bit _ (Nat.mod_lt _ (by decide))]
    congr 2
    rw [eq_iff_iff]
    omega
  · have hne : off' ≠ off := fun heq => hword (heq ▸ rfl)
    simp [hword, hne, testWord]

theorem foldl_setWord_length (offs : List ℕ) (words : List (BitVec 64)) :
    (offs.foldl setWord words).length = words.length := by
  induction offs generalizing words with
  | nil => rfl
  | cons off offs ih => rw [foldl_cons, ih, setWord_length]

theorem testWord_foldl {offs : List ℕ} (h : ∀ off ∈ offs, off / 64 < words.length) (off' : ℕ) :
    testWord (offs.foldl setWord words) off' = (decide (off' ∈ offs) || testWord words off') := by
  induction offs generalizing words with
  | nil => simp
  | cons off offs ih =>
    obtain ⟨hoff, hoffs⟩ := forall_mem_cons.1 h
    rw [foldl_cons, ih (by simpa using hoffs), testWord_setWord hoff, ← Bool.or_assoc]
    congr 1
    rw [Bool.eq_iff_iff]
    simp [or_comm]

theorem contains_densify {offs : List ℕ} (h : ∀ off ∈ offs, off < chunkRows) (off : ℕ) :
    (densify offs).contains off = decide (off ∈ offs) := by
  rw [densify, contains, testWord_foldl]
  · have hzero : testWord (List.replicate wordsPerChunk 0) off = false := by
      rw [testWord, getElem?_replicate]
      split <;> simp
    rw [hzero, Bool.or_false]
  · intro o ho
    have := h o ho
    simp only [chunkRows] at this
    rw [length_replicate, wordsPerChunk]
    omega

theorem cardinality_dense (h : testWord words off = true) : (dense words).cardinality ≠ 0 := by
  obtain ⟨word, hword, hbit⟩ := (Option.any_eq_true _ _).1 h
  have hmem := mem_of_getElem? hword
  intro hzero
  have hcount := sum_eq_zero_iff.1 hzero _ (mem_map_of_mem hmem)
  rw [countP_eq_zero] at hcount
  exact hcount _ (mem_range.2 (Nat.mod_lt _ (by decide))) hbit

end Bits

section Insert

variable {c : Container} {off : ℕ}

theorem word_lt {words : List (BitVec 64)} (h : words.length = wordsPerChunk)
    (hoff : off < chunkRows) : off / 64 < words.length := by
  simp only [chunkRows, wordsPerChunk] at h hoff
  omega

theorem orderedInsert_lt {offs : List ℕ} (h : ∀ o ∈ offs, o < chunkRows) (hoff : off < chunkRows) :
    ∀ o ∈ offs.orderedInsert (· ≤ ·) off, o < chunkRows := by
  intro o ho
  obtain rfl | ho := (mem_orderedInsert _).1 ho
  · exact hoff
  · exact h o ho

theorem contains_insert (h : c.WF) (hoff : off < chunkRows) (off' : ℕ) :
    (c.insert off).contains off' = (decide (off' = off) || c.contains off') := by
  cases c with
  | sparse offs =>
    rw [insert]
    by_cases hmem : off ∈ offs
    · rw [if_pos hmem, contains, Bool.eq_iff_iff]
      simp only [Bool.or_eq_true, decide_eq_true_eq]
      exact ⟨Or.inr, fun h => h.elim (fun heq => heq ▸ hmem) id⟩
    · rw [if_neg hmem]
      have hbound := orderedInsert_lt h.2.2.1 hoff
      dsimp only
      split
      · rw [contains_densify hbound, contains]
        simp
      · simp [contains]
  | dense words =>
    exact testWord_setWord (word_lt h.1 hoff) off'

theorem WF.insert (h : c.WF) (hoff : off < chunkRows) : (c.insert off).WF := by
  cases c with
  | sparse offs =>
    obtain ⟨hne, hlen, hbound, hsorted⟩ := h
    rw [Container.insert]
    by_cases hmem : off ∈ offs
    · rw [if_pos hmem]
      exact ⟨hne, hlen, hbound, hsorted⟩
    · rw [if_neg hmem]
      have hbound' := orderedInsert_lt hbound hoff
      dsimp only
      split
      · have hself : testWord ((offs.orderedInsert (· ≤ ·) off).foldl setWord
            (List.replicate wordsPerChunk 0)) off = true := by
          have := contains_densify hbound' off
          rw [densify, contains] at this
          rw [this]
          simp
        refine ⟨?_, cardinality_dense hself⟩
        rw [foldl_setWord_length, length_replicate]
      · rename_i hshort
        refine ⟨?_, ?_, hbound', ?_⟩
        · exact ne_nil_of_mem ((mem_orderedInsert _).2 (.inl rfl))
        · simp only [sparseMax, chunkRows] at hshort ⊢
          omega
        · have hnodup : (offs.orderedInsert (· ≤ ·) off).Nodup :=
            (perm_orderedInsert _ off offs).nodup_iff.2
              (nodup_cons.2 ⟨hmem, hsorted.imp fun hlt => hlt.ne⟩)
          have hle := (hsorted.imp fun hlt => hlt.le).orderedInsert off
          exact (hle.and hnodup).imp fun hab => lt_of_le_of_ne hab.1 hab.2
  | dense words =>
    have hself : testWord (setWord words off) off = true := by
      rw [testWord_setWord (word_lt h.1 hoff), decide_eq_true rfl, Bool.true_or]
    exact ⟨(setWord_length words off).trans h.1, cardinality_dense hself⟩

theorem WF.exists_contains (h : c.WF) : ∃ off, off < chunkRows ∧ c.contains off = true := by
  cases c with
  | sparse offs =>
    obtain ⟨off, hoff⟩ := exists_mem_of_ne_nil offs h.1
    exact ⟨off, h.2.2.1 off hoff, decide_eq_true hoff⟩
  | dense words =>
    obtain ⟨n, hn, hpos⟩ : ∃ n ∈ words.map fun word => (List.range 64).countP word.getLsbD,
        n ≠ 0 := by
      by_contra hall
      push Not at hall
      exact h.2 (sum_eq_zero_iff.2 hall)
    obtain ⟨word, hword, rfl⟩ := mem_map.1 hn
    obtain ⟨b, hb, hbit⟩ := countP_pos_iff.1 (Nat.pos_of_ne_zero hpos)
    obtain ⟨i, hi, rfl⟩ := mem_iff_getElem.1 hword
    have hb := mem_range.1 hb
    have hlen := h.1
    simp only [wordsPerChunk] at hlen
    refine ⟨i * 64 + b, ?_, ?_⟩
    · simp only [chunkRows]
      omega
    · have hdiv : (i * 64 + b) / 64 = i := by omega
      have hmod : (i * 64 + b) % 64 = b := by omega
      rw [contains, testWord, hdiv, hmod, getElem?_eq_getElem hi]
      exact hbit

end Insert

end Container

/-- The deleted rows; chunks without any are not stored. -/
structure DeleteBitmap where
  chunks : IdMap ℕ Container
  wf : ∀ x ∈ chunks.entries, x.1 ≤ (2 ^ 32 - 1) / chunkRows ∧ x.2.WF

namespace DeleteBitmap

def empty : DeleteBitmap := ⟨.empty, nofun⟩

def isEmpty (b : DeleteBitmap) : Bool := b.chunks.entries.isEmpty

def len (b : DeleteBitmap) : ℕ := (b.chunks.entries.map fun x => x.2.cardinality).sum

def contains (b : DeleteBitmap) (row : ℕ) : Bool :=
  (b.chunks.get (row / chunkRows)).any (·.contains (row % chunkRows))

/-- The container of a chunk after an offset is marked in it. -/
def marked (b : DeleteBitmap) (row : ℕ) : Container :=
  match b.chunks.get (row / chunkRows) with
  | some c => c.insert (row % chunkRows)
  | none => .sparse [row % chunkRows]

theorem mod_chunkRows_lt (row : ℕ) : row % chunkRows < chunkRows := Nat.mod_lt _ (by decide)

theorem wf_get (b : DeleteBitmap) {chunk : ℕ} {c : Container}
    (h : b.chunks.get chunk = some c) : c.WF :=
  (b.wf _ (IdMap.get_eq_some.1 h)).2

theorem marked_wf (b : DeleteBitmap) (row : ℕ) : (b.marked row).WF := by
  rw [marked]
  cases h : b.chunks.get (row / chunkRows) with
  | some c => exact (b.wf_get h).insert (mod_chunkRows_lt row)
  | none =>
    refine ⟨cons_ne_nil _ _, by simp [chunkRows], ?_, pairwise_singleton _ _⟩
    intro off hoff
    obtain rfl := mem_singleton.1 hoff
    exact mod_chunkRows_lt row

def insert (b : DeleteBitmap) (row : Fin (2 ^ 32)) : DeleteBitmap where
  chunks := b.chunks.insert (row / chunkRows) (b.marked row)
  wf := by
    intro x hx
    obtain rfl | hx := IdMap.mem_insertEntry hx
    · exact ⟨Nat.div_le_div_right (by omega), b.marked_wf row⟩
    · exact b.wf x hx

theorem contains_insert (b : DeleteBitmap) (row : Fin (2 ^ 32)) (row' : ℕ) :
    (b.insert row).contains row' = (decide (row' = row.val) || b.contains row') := by
  rw [contains, insert, IdMap.get_insert]
  by_cases hchunk : row.val / chunkRows = row' / chunkRows
  · have hrow : row' = row.val ↔ row' % chunkRows = row.val % chunkRows := by
      have h1 := Nat.div_add_mod row' chunkRows
      have h2 := Nat.div_add_mod row.val chunkRows
      rw [hchunk] at h2
      omega
    rw [if_pos hchunk, Option.any_some, contains, marked, hchunk]
    cases h : b.chunks.get (row' / chunkRows) with
    | some c =>
      simp only [Option.any_some, hrow]
      exact Container.contains_insert (b.wf_get h) (mod_chunkRows_lt _) _
    | none => simp [Container.contains, hrow]
  · have hne : row' ≠ row.val := fun heq => hchunk (heq ▸ rfl)
    simp [hchunk, hne, contains]

theorem exists_contains {b : DeleteBitmap} (h : b.isEmpty = false) :
    ∃ row, b.contains row = true := by
  cases hentries : b.chunks.entries with
  | nil => simp [isEmpty, hentries] at h
  | cons x rest =>
    have hx : x ∈ b.chunks.entries := by simp [hentries]
    obtain ⟨off, hoff, hcontains⟩ := (b.wf x hx).2.exists_contains
    have hget : b.chunks.get x.1 = some x.2 := IdMap.get_eq_some.2 hx
    refine ⟨x.1 * chunkRows + off, ?_⟩
    have hdiv : (x.1 * chunkRows + off) / chunkRows = x.1 := by
      rw [Nat.mul_comm, Nat.mul_add_div (by decide), Nat.div_eq_of_lt hoff, Nat.add_zero]
    have hmod : (x.1 * chunkRows + off) % chunkRows = off := by
      rw [Nat.mul_comm, Nat.mul_add_mod, Nat.mod_eq_of_lt hoff]
    rw [contains, hdiv, hmod, hget]
    exact hcontains

@[simp] theorem contains_empty (row : ℕ) : empty.contains row = false := rfl

end DeleteBitmap

section Section

def Container.encode : Container → Bytes
  | .sparse offs => encodeLe 1 0 ++ (encodeLe 2 offs.length ++ offs.flatMap (encodeLe 2))
  | .dense words => encodeLe 1 1 ++ words.flatMap fun word => encodeLe 8 word.toNat

def encodeChunk (x : ℕ × Container) : Bytes := encodeLe 4 x.1 ++ x.2.encode

def readOffset : Reader ℕ := do
  let off ← read 2
  pure off.val

def readWord : Reader (BitVec 64) := do
  let word ← read 8
  pure (BitVec.ofNat 64 word.val)

def readContainer : Reader Container := do
  let kind ← read 1
  match kind.val with
  | 0 => do
    let count ← read 2
    let offs ← repeatRead readOffset count.val
    pure (.sparse offs)
  | 1 => do
    let words ← repeatRead readWord wordsPerChunk
    pure (.dense words)
  | _ => failure

def readChunk : Reader (ℕ × Container) := do
  let chunk ← read 4
  let c ← readContainer
  pure (chunk.val, c)

namespace DeleteBitmap

def encode (b : DeleteBitmap) : Bytes :=
  encodeLe 4 b.chunks.entries.length ++ b.chunks.entries.flatMap encodeChunk

def ofChunks (entries : List (ℕ × Container)) : Option DeleteBitmap :=
  if h : (entries.Pairwise fun x y => x.1 < y.1) ∧
      ∀ x ∈ entries, x.1 ≤ (2 ^ 32 - 1) / chunkRows ∧ x.2.WF then
    some ⟨⟨entries, h.1⟩, h.2⟩
  else none

def decode (bytes : Bytes) : Option DeleteBitmap := do
  let (count, rest) ← (read 4).run bytes
  guard (count.val ≤ rest.length / 7)
  let (entries, rest) ← (repeatRead readChunk count.val).run rest
  guard (rest = [])
  ofChunks entries

end DeleteBitmap

theorem reads_offset {off : ℕ} (h : off < chunkRows) : Reads readOffset (encodeLe 2 off) off := by
  have hlt : off < 256 ^ 2 := h.trans (by decide)
  exact (reads_encodeLe hlt).map

theorem reads_word (word : BitVec 64) : Reads readWord (encodeLe 8 word.toNat) word := by
  have hlt : word.toNat < 256 ^ 8 := word.isLt.trans_eq (by decide)
  have hread : Reads readWord (encodeLe 8 word.toNat) (BitVec.ofNat 64 word.toNat) :=
    (reads_encodeLe hlt).map
  rwa [BitVec.ofNat_toNat, BitVec.setWidth_eq] at hread

theorem reads_container {c : Container} (h : c.WF) : Reads readContainer c.encode c := by
  cases c with
  | sparse offs =>
    obtain ⟨-, hlen, hbound, -⟩ := h
    have hcount : offs.length < 256 ^ 2 := Nat.lt_of_le_of_lt hlen (by decide)
    apply (reads_encodeLe (n := 1) (by decide)).bind
    apply (reads_encodeLe hcount).bind
    exact (reads_flatMap fun off hoff => reads_offset (hbound off hoff)).map
  | dense words =>
    have hwords := reads_flatMap fun word (_ : word ∈ words) => reads_word word
    rw [h.1] at hwords
    apply (reads_encodeLe (n := 1) (by decide)).bind
    exact hwords.map

theorem seven_le_encodeChunk (x : ℕ × Container) (h : x.2.WF) : 7 ≤ (encodeChunk x).length := by
  obtain ⟨chunk, c⟩ := x
  cases c with
  | sparse offs =>
    simp only [encodeChunk, Container.encode, length_append, encodeLe_length]
    omega
  | dense words =>
    have hlen : (words.flatMap fun word => encodeLe 8 word.toNat).length = 256 := by
      simp [length_flatMap, h.1, wordsPerChunk]
    simp only [encodeChunk, Container.encode, length_append, encodeLe_length, hlen]
    decide

namespace DeleteBitmap

theorem length_chunks_lt (b : DeleteBitmap) : b.chunks.entries.length < 256 ^ 4 := by
  have hnodup : (b.chunks.entries.map Prod.fst).Nodup :=
    pairwise_map.2 (b.chunks.sorted.imp fun hlt => hlt.ne)
  have hsub : b.chunks.entries.map Prod.fst ⊆ List.range ((2 ^ 32 - 1) / chunkRows + 1) := by
    intro chunk hchunk
    obtain ⟨x, hx, rfl⟩ := mem_map.1 hchunk
    exact mem_range.2 (Nat.lt_succ_of_le (b.wf x hx).1)
  have hle := (hnodup.subperm hsub).length_le
  rw [length_map, length_range] at hle
  exact Nat.lt_of_le_of_lt hle (by decide)

theorem decode_encode (b : DeleteBitmap) : decode b.encode = some b := by
  have hcount := reads_encodeLe b.length_chunks_lt
  have hchunks : Reads (repeatRead readChunk b.chunks.entries.length)
      (b.chunks.entries.flatMap encodeChunk) b.chunks.entries := by
    apply reads_flatMap
    intro x hx
    have hlt : x.1 < 256 ^ 4 := Nat.lt_of_le_of_lt (b.wf x hx).1 (by decide)
    exact (reads_encodeLe hlt).bind (reads_container (b.wf x hx).2).map
  have hsize : b.chunks.entries.length ≤
      (b.chunks.entries.flatMap encodeChunk).length / 7 := by
    rw [Nat.le_div_iff_mul_le (by decide), length_flatMap]
    have := card_nsmul_le_sum (b.chunks.entries.map fun x => (encodeChunk x).length) 7
      (by
        intro n hn
        obtain ⟨x, hx, rfl⟩ := mem_map.1 hn
        exact seven_le_encodeChunk x (b.wf x hx).2)
    simpa using this
  rw [decode, encode, hcount]
  refine guard_bind_eq_some.2 ⟨hsize, ?_⟩
  refine Option.bind_eq_some_iff.2 ⟨_, hchunks.run_eq, ?_⟩
  exact guard_bind_eq_some.2 ⟨rfl, dif_pos ⟨b.chunks.sorted, b.wf⟩⟩

end DeleteBitmap

end Section

end LsmTree
