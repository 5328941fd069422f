import LsmTree.Theory.Codec

/-! Bytes as a bit set, lowest bit first: bit `i` is bit `i % 8` of byte `i / 8`. -/
namespace BitSet

open Codec

variable {bytes : Bytes} {i j n : ℕ}

def testBit (bytes : Bytes) (i : ℕ) : Bool := bytes[i / 8]?.any fun b => b.val.testBit (i % 8)

/-- A bit beyond the last byte is not set. -/
def setBit (bytes : Bytes) (i : ℕ) : Bytes :=
  bytes.modify (i / 8) fun b =>
    ⟨b.val ||| 2 ^ (i % 8), Nat.or_lt_two_pow (n := 8) b.isLt
      (Nat.pow_lt_pow_right (by decide) (Nat.mod_lt i (by decide)))⟩

def size (n : ℕ) : ℕ := (n + 7) / 8

/-- The bytes that hold the bits `p 0`, ..., `p (n - 1)`, set one after the other. -/
def build (n : ℕ) (p : ℕ → Bool) : Bytes :=
  (List.range n).foldl (fun bytes i => if p i then setBit bytes i else bytes)
    (List.replicate (size n) 0)

@[simp] theorem setBit_length (bytes : Bytes) (i : ℕ) : (setBit bytes i).length = bytes.length :=
  List.length_modify ..

theorem testBit_setBit (h : i < 8 * bytes.length) :
    testBit (setBit bytes i) j = (decide (i = j) || testBit bytes j) := by
  have hi : i / 8 < bytes.length := by omega
  by_cases hbyte : i / 8 = j / 8
  · have hj : j / 8 < bytes.length := by omega
    have hbit : (i % 8 = j % 8) ↔ i = j := by omega
    simp only [testBit, setBit, List.getElem?_modify, hbyte, if_true,
      List.getElem?_eq_getElem hj, Option.map_eq_map, Option.map_some, Option.any_some, Nat.testBit_or,
      Nat.testBit_two_pow, hbit]
    exact Bool.or_comm _ _
  · have hne : i ≠ j := fun h => hbyte (by rw [h])
    simp [testBit, setBit, hbyte, hne]

theorem testBit_replicate (n : ℕ) : testBit (List.replicate n 0) j = false := by
  by_cases h : j / 8 < n <;> simp [testBit, h]

theorem foldl_setBit (p : ℕ → Bool) {m : ℕ} (h : m ≤ 8 * bytes.length) :
    ((List.range m).foldl (fun bytes i => if p i then setBit bytes i else bytes) bytes).length =
        bytes.length ∧
      testBit ((List.range m).foldl (fun bytes i => if p i then setBit bytes i else bytes) bytes) j =
        ((decide (j < m) && p j) || testBit bytes j) := by
  induction m with
  | zero => simp
  | succ m ih =>
    obtain ⟨hlen, hbit⟩ := ih (by omega)
    rw [List.range_succ, List.foldl_append, List.foldl_cons, List.foldl_nil]
    by_cases hp : p m = true
    · rw [if_pos hp, setBit_length, testBit_setBit (by rw [hlen]; omega), hbit]
      refine ⟨hlen, ?_⟩
      by_cases hj : m = j
      · subst hj
        simp [hp]
      · have : (j < m + 1) ↔ j < m := by omega
        simp [hj, this]
    · rw [if_neg hp, hbit]
      refine ⟨hlen, ?_⟩
      by_cases hj : m = j
      · subst hj
        simp [hp]
      · have : (j < m + 1) ↔ j < m := by omega
        simp [this]

theorem build_length (n : ℕ) (p : ℕ → Bool) : (build n p).length = size n := by
  have h : n ≤ 8 * (List.replicate (size n) (0 : Fin 256)).length := by
    rw [List.length_replicate, size]
    omega
  rw [build, (foldl_setBit (j := 0) p h).1, List.length_replicate]

theorem testBit_build (n : ℕ) (p : ℕ → Bool) : testBit (build n p) j = (decide (j < n) && p j) := by
  have h : n ≤ 8 * (List.replicate (size n) (0 : Fin 256)).length := by
    rw [List.length_replicate, size]
    omega
  rw [build, (foldl_setBit p h).2, testBit_replicate, Bool.or_false]

end BitSet
