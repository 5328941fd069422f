import Mathlib

/-! Byte formats: a reader takes back what a writer produced, whatever follows it. -/
namespace Codec

open List Option Nat

abbrev Bytes := List (Fin 256)

instance neZero_byte : NeZero 256 := ⟨by decide⟩

instance neZero_eight_bytes : NeZero (256 ^ 8) := ⟨by decide⟩

instance neZero_sixteen_bytes : NeZero (256 ^ 16) := ⟨by decide⟩

abbrev Reader := StateT Bytes Option

section Reads

variable {α β : Type} {p : Reader α} {a : α} {b : β}

/-- The reader takes `bytes` off its input as the value `a`. -/
def Reads (p : Reader α) (bytes : Bytes) (a : α) : Prop :=
  ∀ rest, p.run (bytes ++ rest) = some (a, rest)

theorem Reads.pure (a : α) : Reads (pure a) [] a := fun _ => rfl

variable {f : α → Reader β} {xs : Bytes}

theorem Reads.bind {ys : Bytes} (hp : Reads p xs a) (hf : Reads (f a) ys b) :
    Reads (p >>= f) (xs ++ ys) b := by
  intro rest
  rw [StateT.run_bind, append_assoc, hp]
  exact hf rest

theorem Reads.map {f : α → β} (hp : Reads p xs a) :
    Reads (p >>= fun x => Pure.pure (f x)) xs (f a) := by
  have h := hp.bind (f := fun x => Pure.pure (f x)) (Reads.pure (f a))
  rwa [append_nil] at h

theorem Reads.of_guard {c : Prop} [Decidable c] {f : Unit → Reader α} (hc : c)
    (hf : Reads (f ()) xs a) : Reads (guard c >>= f) xs a := by
  intro rest
  have hguard : (guard c : Reader Unit) = Pure.pure () := if_pos hc
  rw [hguard, pure_bind]
  exact hf rest

theorem Reads.run_bind (hp : Reads p xs a) (ys : Bytes) :
    (p >>= f).run (xs ++ ys) = (f a).run ys := by
  rw [StateT.run_bind, hp]
  rfl

theorem Reads.run_eq {bytes : Bytes} (h : Reads p bytes a) : p.run bytes = some (a, []) := by
  have hnil := h []
  rwa [append_nil] at hnil

end Reads

section Ints

def encodeLe : ℕ → ℕ → Bytes
  | 0, _ => []
  | n + 1, x => ⟨x % 256, Nat.mod_lt _ (by decide)⟩ :: encodeLe n (x / 256)

def decodeLe : ℕ → Bytes → Option (ℕ × Bytes)
  | 0, bytes => some (0, bytes)
  | _ + 1, [] => none
  | n + 1, b :: bytes => (decodeLe n bytes).map fun x => (b.val + 256 * x.1, x.2)

@[simp] theorem encodeLe_length (n x : ℕ) : (encodeLe n x).length = n := by
  induction n generalizing x with
  | zero => rfl
  | succ n ih => rw [encodeLe, length_cons, ih]

theorem encodeLe_mod (n x : ℕ) : encodeLe n (x % 256 ^ n) = encodeLe n x := by
  induction n generalizing x with
  | zero => rfl
  | succ n ih =>
    have hlow : x % 256 ^ (n + 1) % 256 = x % 256 := by
      rw [pow_succ, mul_comm, mod_mul_right_mod]
    have hhigh : x % 256 ^ (n + 1) / 256 = x / 256 % 256 ^ n := by
      rw [pow_succ, mul_comm, mod_mul_right_div_self]
    simp only [encodeLe, hlow, hhigh, ih]

variable {n x : ℕ}

theorem decodeLe_encodeLe (h : x < 256 ^ n) (rest : Bytes) :
    decodeLe n (encodeLe n x ++ rest) = some (x, rest) := by
  induction n generalizing x with
  | zero =>
    have hx : x = 0 := by simpa using h
    rw [hx]
    rfl
  | succ n ih =>
    have hdiv : x / 256 < 256 ^ n := by
      rw [pow_succ] at h
      exact Nat.div_lt_of_lt_mul (by rwa [mul_comm])
    rw [encodeLe, cons_append, decodeLe, ih hdiv]
    simp only [map_some, Nat.mod_add_div]

variable {bytes rest : Bytes}

theorem decodeLe_eq_some (h : decodeLe n bytes = some (x, rest)) :
    bytes = encodeLe n x ++ rest ∧ x < 256 ^ n := by
  induction n generalizing bytes x with
  | zero =>
    cases h
    exact ⟨rfl, one_pos⟩
  | succ n ih =>
    cases bytes with
    | nil => cases h
    | cons b bytes =>
      obtain ⟨⟨y, rest'⟩, hy, h⟩ := map_eq_some_iff.1 h
      cases h
      obtain ⟨rfl, hlt⟩ := ih hy
      have hb := b.isLt
      have hlow : (b.val + 256 * y) % 256 = b.val := by omega
      have hhigh : (b.val + 256 * y) / 256 = y := by omega
      refine ⟨?_, by rw [pow_succ]; omega⟩
      rw [encodeLe, cons_append, hhigh]
      exact congrArg (· :: _) (Fin.ext hlow.symm)

theorem decodeLe_short (h : bytes.length < n) :
    decodeLe n bytes = none := by
  induction n generalizing bytes with
  | zero => exact absurd h (not_lt_zero _)
  | succ n ih =>
    cases bytes with
    | nil => rfl
    | cons b bytes => rw [decodeLe, ih (lt_of_succ_lt_succ h), map_none]

def write {n : ℕ} (x : Fin (256 ^ n)) : Bytes := encodeLe n x

def read (n : ℕ) : Reader (Fin (256 ^ n)) := fun bytes =>
  (decodeLe n bytes).map fun x => (⟨x.1 % 256 ^ n, Nat.mod_lt _ (Nat.pow_pos (by decide))⟩, x.2)

@[simp] theorem write_length (x : Fin (256 ^ n)) : (write x).length = n :=
  encodeLe_length n x

theorem reads_write (x : Fin (256 ^ n)) : Reads (read n) (write x) x := by
  intro rest
  change (decodeLe n (encodeLe n x ++ rest)).map _ = _
  rw [decodeLe_encodeLe x.isLt]
  simp only [map_some, mod_eq_of_lt x.isLt]

theorem reads_encodeLe (h : x < 256 ^ n) : Reads (read n) (encodeLe n x) ⟨x, h⟩ :=
  reads_write ⟨x, h⟩

theorem read_eq_some {a : Fin (256 ^ n)} (h : (read n).run bytes = some (a, rest)) :
    bytes = write a ++ rest := by
  obtain ⟨⟨x, rest'⟩, hx, h⟩ := map_eq_some_iff.1 h
  cases h
  obtain ⟨rfl, hlt⟩ := decodeLe_eq_some hx
  simp only [write, mod_eq_of_lt hlt]

theorem read_short (h : bytes.length < n) :
    (read n).run bytes = none := by
  change (decodeLe n bytes).map _ = _
  rw [decodeLe_short h, map_none]

end Ints

section Varints

/-- Seven bits a byte, lowest first; every byte but the last has its high bit set. -/
def writeVarintFrom : ℕ → ℕ → Bytes
  | 0, x => [⟨x % 128, by omega⟩]
  | fuel + 1, x =>
    if x < 128 then [⟨x % 128, by omega⟩]
    else ⟨x % 128 + 128, by omega⟩ :: writeVarintFrom fuel (x / 128)

def writeVarint (x : ℕ) : Bytes := writeVarintFrom x x

def decodeVarint : Bytes → Option (ℕ × Bytes)
  | [] => none
  | b :: bytes =>
    if b.val < 128 then some (b.val, bytes)
    else (decodeVarint bytes).map fun x => (b.val - 128 + 128 * x.1, x.2)

def readVarint : Reader ℕ := fun bytes => decodeVarint bytes

theorem decodeVarint_writeVarintFrom {fuel x : ℕ} (h : x ≤ fuel) (rest : Bytes) :
    decodeVarint (writeVarintFrom fuel x ++ rest) = some (x, rest) := by
  induction fuel generalizing x with
  | zero =>
    have hx : x = 0 := le_zero.1 h
    simp [writeVarintFrom, decodeVarint, hx]
  | succ fuel ih =>
    by_cases hsmall : x < 128
    · simp [writeVarintFrom, decodeVarint, hsmall, mod_eq_of_lt hsmall]
    · have hrest := ih (x := x / 128) (by omega)
      have hlow : x % 128 + 128 * (x / 128) = x := Nat.mod_add_div x 128
      simp [writeVarintFrom, decodeVarint, hsmall, hrest, hlow]

theorem reads_varint (x : ℕ) : Reads readVarint (writeVarint x) x :=
  fun rest => decodeVarint_writeVarintFrom le_rfl rest

/-- A varint of at most 64 bits: bits beyond them are refused. -/
def decodeLeb128 : ℕ → Bytes → Option (ℕ × Bytes)
  | _, [] => none
  | shift, b :: bytes =>
    if shift = 63 ∧ 2 ≤ b.val % 128 then none
    else if b.val < 128 then some (b.val * 2 ^ shift, bytes)
    else if 64 ≤ shift + 7 then none
    else (decodeLeb128 (shift + 7) bytes).map fun x => (b.val % 128 * 2 ^ shift + x.1, x.2)

def readLeb128 : Reader ℕ := fun bytes => decodeLeb128 0 bytes

theorem decodeLeb128_writeVarintFrom {fuel x shift : ℕ} (h : x ≤ fuel)
    (hbits : x * 2 ^ shift < 2 ^ 64) (rest : Bytes) :
    decodeLeb128 shift (writeVarintFrom fuel x ++ rest) = some (x * 2 ^ shift, rest) := by
  induction fuel generalizing x shift with
  | zero =>
    have hx : x = 0 := le_zero.1 h
    simp [writeVarintFrom, decodeLeb128, hx]
  | succ fuel ih =>
    by_cases hsmall : x < 128
    · have hlast : ¬(shift = 63 ∧ 2 ≤ x) := by
        rintro ⟨rfl, hbig⟩
        omega
      simp only [writeVarintFrom, hsmall, if_true, singleton_append, decodeLeb128,
        mod_eq_of_lt hsmall, if_neg hlast]
    · have hpow : 2 ^ (shift + 7) = 128 * 2 ^ shift := by rw [pow_add, mul_comm]; rfl
      have hroom : shift + 7 < 64 := by
        have hle : 128 * 2 ^ shift ≤ x * 2 ^ shift := mul_le_mul_right _ (not_lt.1 hsmall)
        exact (Nat.pow_lt_pow_iff_right (by decide : 1 < 2)).1 (by omega)
      have hsplit : x % 128 * 2 ^ shift + x / 128 * 2 ^ (shift + 7) = x * 2 ^ shift := by
        rw [hpow, ← mul_assoc, ← add_mul, mul_comm (x / 128), Nat.mod_add_div]
      have hrest := @ih (x / 128) (shift + 7) (by omega) (by omega)
      have hlow : (x % 128 + 128) % 128 = x % 128 := by omega
      have hne : shift ≠ 63 := by omega
      simp [writeVarintFrom, decodeLeb128, hsmall, hrest, hsplit, hlow, hne]
      omega

theorem reads_leb128 {x : ℕ} (h : x < 2 ^ 64) : Reads readLeb128 (writeVarint x) x := by
  intro rest
  have hdecode := @decodeLeb128_writeVarintFrom x x 0 le_rfl (by simpa using h) rest
  rw [pow_zero, mul_one] at hdecode
  exact hdecode

end Varints

section Strings

def readBytes (n : ℕ) : Reader Bytes := fun bytes =>
  if bytes.length < n then none else some (bytes.take n, bytes.drop n)

theorem reads_bytes (bytes : Bytes) : Reads (readBytes bytes.length) bytes bytes := by
  intro rest
  change (if (bytes ++ rest).length < bytes.length then none else _) = _
  rw [if_neg (by simp)]
  simp

end Strings

section Lists

variable {α ε : Type}

def repeatRead (p : Reader α) : ℕ → Reader (List α)
  | 0 => pure []
  | n + 1 => do
    let a ← p
    let as ← repeatRead p n
    pure (a :: as)

def readList (p : Reader α) : Reader (List α) := do
  let count ← read 4
  repeatRead p count.val

def u32Len (overflow : ε) (n : ℕ) : Except ε (Fin (256 ^ 4)) :=
  if h : n < 256 ^ 4 then .ok ⟨n, h⟩ else .error overflow

def writeAll (enc : α → Except ε Bytes) : List α → Except ε Bytes
  | [] => .ok []
  | a :: as => do
    let x ← enc a
    let xs ← writeAll enc as
    return x ++ xs

def writeList (overflow : ε) (enc : α → Except ε Bytes) (as : List α) : Except ε Bytes := do
  let count ← u32Len overflow as.length
  let items ← writeAll enc as
  return write count ++ items

/-- The reader takes back all that the writer can produce. -/
def RoundTrip (enc : α → Except ε Bytes) (dec : Reader α) : Prop :=
  ∀ a bytes, enc a = .ok bytes → Reads dec bytes a

theorem bind_eq_ok.{u, v} {ε : Type u} {α β : Type v} {x : Except ε α} {f : α → Except ε β} {b : β} :
    x >>= f = .ok b ↔ ∃ a, x = .ok a ∧ f a = .ok b := by
  cases x with
  | error e => exact ⟨nofun, fun ⟨_, h, _⟩ => nomatch h⟩
  | ok a => exact ⟨fun h => ⟨a, rfl, h⟩, fun ⟨_, ha, h⟩ => Except.ok.inj ha ▸ h⟩

variable {n : ℕ}

theorem u32Len_eq_ok {overflow : ε} {count : Fin (256 ^ 4)} (h : u32Len overflow n = .ok count) :
    count.val = n := by
  unfold u32Len at h
  split at h
  · exact congrArg Fin.val (Except.ok.inj h).symm
  · cases h

theorem u32Len_of_lt {overflow : ε} (h : n < 256 ^ 4) :
    u32Len overflow n = .ok ⟨n, h⟩ := dif_pos h

variable {p : Reader α} {bytes rest : Bytes} {as : List α}

theorem repeatRead_length (h : (repeatRead p n).run bytes = some (as, rest)) : as.length = n := by
  induction n generalizing bytes as with
  | zero =>
    cases h
    rfl
  | succ n ih =>
    obtain ⟨⟨a, bytes'⟩, -, h⟩ := bind_eq_some_iff.1 h
    obtain ⟨⟨as', rest'⟩, hrest, h⟩ := bind_eq_some_iff.1 h
    cases h
    rw [length_cons, ih hrest]

theorem repeatRead_eq_some {enc : α → Bytes}
    (hp : ∀ bytes a rest, p.run bytes = some (a, rest) → bytes = enc a ++ rest)
    (h : (repeatRead p n).run bytes = some (as, rest)) :
    bytes = as.flatMap enc ++ rest := by
  induction n generalizing bytes as with
  | zero =>
    cases h
    rfl
  | succ n ih =>
    obtain ⟨⟨a, bytes'⟩, ha, h⟩ := bind_eq_some_iff.1 h
    obtain ⟨⟨as', rest'⟩, hrest, h⟩ := bind_eq_some_iff.1 h
    cases h
    have htail : bytes' = as'.flatMap enc ++ rest := ih hrest
    rw [hp _ _ _ ha, htail, flatMap_cons, append_assoc]

theorem readList_length (h : (readList p).run bytes = some (as, rest)) : as.length < 256 ^ 4 := by
  obtain ⟨⟨count, bytes'⟩, -, h⟩ := bind_eq_some_iff.1 h
  rw [repeatRead_length h]
  exact count.isLt

theorem forall_mem_repeatRead {q : α → Prop}
    (hp : ∀ bytes a rest, p.run bytes = some (a, rest) → q a)
    (h : (repeatRead p n).run bytes = some (as, rest)) : ∀ a ∈ as, q a := by
  induction n generalizing bytes as with
  | zero =>
    cases h
    exact fun _ ha => nomatch ha
  | succ n ih =>
    obtain ⟨⟨a, bytes'⟩, ha, h⟩ := bind_eq_some_iff.1 h
    obtain ⟨⟨as', rest'⟩, hrest, h⟩ := bind_eq_some_iff.1 h
    cases h
    exact forall_mem_cons.2 ⟨hp _ _ _ ha, ih hrest⟩

variable {enc : α → Except ε Bytes} {dec : Reader α} {overflow : ε}

theorem writeAll_eq_ok : (∃ bytes, writeAll enc as = .ok bytes) ↔
    ∀ a ∈ as, ∃ bytes, enc a = .ok bytes := by
  induction as with
  | nil => exact ⟨fun _ _ ha => (nomatch ha), fun _ => ⟨[], rfl⟩⟩
  | cons a as ih =>
    rw [forall_mem_cons, ← ih]
    constructor
    · rintro ⟨bytes, h⟩
      obtain ⟨x, hx, h⟩ := bind_eq_ok.1 h
      obtain ⟨xs, hxs, -⟩ := bind_eq_ok.1 h
      exact ⟨⟨x, hx⟩, ⟨xs, hxs⟩⟩
    · rintro ⟨⟨x, hx⟩, ⟨xs, hxs⟩⟩
      exact ⟨x ++ xs, bind_eq_ok.2 ⟨x, hx, bind_eq_ok.2 ⟨xs, hxs, rfl⟩⟩⟩

theorem writeList_eq_ok : (∃ bytes, writeList overflow enc as = .ok bytes) ↔
    as.length < 256 ^ 4 ∧ ∀ a ∈ as, ∃ bytes, enc a = .ok bytes := by
  constructor
  · rintro ⟨bytes, h⟩
    obtain ⟨count, hcount, h⟩ := bind_eq_ok.1 h
    obtain ⟨items, hitems, -⟩ := bind_eq_ok.1 h
    exact ⟨u32Len_eq_ok hcount ▸ count.isLt, writeAll_eq_ok.1 ⟨items, hitems⟩⟩
  · rintro ⟨hlen, hall⟩
    obtain ⟨items, hitems⟩ := writeAll_eq_ok.2 hall
    exact ⟨_, bind_eq_ok.2 ⟨_, u32Len_of_lt hlen, bind_eq_ok.2 ⟨items, hitems, rfl⟩⟩⟩

theorem writeAll_length_sum {size : α → ℕ} (hsize : ∀ a ∈ as, ∀ x, enc a = .ok x → x.length = size a)
    (h : writeAll enc as = .ok bytes) : bytes.length = (as.map size).sum := by
  induction as generalizing bytes with
  | nil =>
    cases h
    rfl
  | cons a as ih =>
    obtain ⟨ha, has⟩ := forall_mem_cons.1 hsize
    obtain ⟨x, hx, h⟩ := bind_eq_ok.1 h
    obtain ⟨xs, hxs, h⟩ := bind_eq_ok.1 h
    cases h
    rw [length_append, ha x hx, ih has hxs, map_cons, sum_cons]

theorem writeAll_length {size : ℕ} (hsize : ∀ a ∈ as, ∀ x, enc a = .ok x → x.length = size)
    (h : writeAll enc as = .ok bytes) : bytes.length = as.length * size := by
  rw [writeAll_length_sum hsize h, map_const', sum_replicate_nat]

theorem RoundTrip.all (h : RoundTrip enc dec) (hw : writeAll enc as = .ok bytes) :
    Reads (repeatRead dec as.length) bytes as := by
  induction as generalizing bytes with
  | nil =>
    cases hw
    exact Reads.pure []
  | cons a as ih =>
    obtain ⟨x, hx, hw⟩ := bind_eq_ok.1 hw
    obtain ⟨xs, hxs, hw⟩ := bind_eq_ok.1 hw
    cases hw
    exact (h a x hx).bind (ih hxs).map

theorem reads_flatMap {dec : Reader α} {enc : α → Bytes} (h : ∀ a ∈ as, Reads dec (enc a) a) :
    Reads (repeatRead dec as.length) (as.flatMap enc) as := by
  induction as with
  | nil => exact Reads.pure []
  | cons a as ih =>
    obtain ⟨ha, has⟩ := forall_mem_cons.1 h
    exact ha.bind (ih has).map

theorem writeAll_append {bs : List α} {xs ys : Bytes} (has : writeAll enc as = .ok xs)
    (hbs : writeAll enc bs = .ok ys) : writeAll enc (as ++ bs) = .ok (xs ++ ys) := by
  induction as generalizing xs with
  | nil =>
    cases has
    exact hbs
  | cons a as ih =>
    obtain ⟨x, hx, has⟩ := bind_eq_ok.1 has
    obtain ⟨zs, hzs, has⟩ := bind_eq_ok.1 has
    cases has
    apply bind_eq_ok.2
    refine ⟨x, hx, bind_eq_ok.2 ⟨zs ++ ys, ih hzs, ?_⟩⟩
    rw [append_assoc]
    rfl

theorem RoundTrip.list (h : RoundTrip enc dec) :
    RoundTrip (writeList overflow enc) (readList dec) := by
  intro as bytes hw
  obtain ⟨count, hcount, hw⟩ := bind_eq_ok.1 hw
  obtain ⟨items, hitems, hw⟩ := bind_eq_ok.1 hw
  cases hw
  apply (reads_write count).bind
  rw [u32Len_eq_ok hcount]
  exact h.all hitems

end Lists

section Sizes

variable {α ε : Type}

/-- A writer of known sizes, which refuses nothing whose size four bytes can count. -/
structure Sized (enc : α → Except ε Bytes) (size : α → ℕ) : Prop where
  pos : ∀ a, 0 < size a
  length : ∀ a bytes, enc a = .ok bytes → bytes.length = size a
  writes : ∀ a, size a < 256 ^ 4 → ∃ bytes, enc a = .ok bytes

variable {enc : α → Except ε Bytes} {size : α → ℕ} {overflow : ε}

theorem Sized.list (h : Sized enc size) :
    Sized (writeList overflow enc) fun as => 4 + (as.map size).sum := by
  constructor
  · intro as
    omega
  · intro as bytes hw
    obtain ⟨count, -, hw⟩ := bind_eq_ok.1 hw
    obtain ⟨items, hitems, hw⟩ := bind_eq_ok.1 hw
    cases hw
    rw [length_append, write_length, writeAll_length_sum (fun a _ => h.length a) hitems]
  · intro as hsize
    have hcount : as.length ≤ (as.map size).sum := by
      simpa using length_le_sum_of_one_le (as.map size) (forall_mem_map.2 fun a _ => h.pos a)
    refine writeList_eq_ok.2 ⟨by omega, fun a ha => h.writes a ?_⟩
    have hle : size a ≤ (as.map size).sum :=
      single_le_sum (fun _ _ => zero_le _) _ (mem_map_of_mem ha)
    omega

theorem Sized.list_const {c : ℕ} (h : Sized enc fun _ => c) :
    Sized (writeList overflow enc) fun as => 4 + c * as.length := by
  have hlist : Sized (writeList overflow enc) fun as => 4 + (as.map fun _ => c).sum := h.list
  simpa only [map_const', sum_replicate_nat, mul_comm] using hlist

end Sizes

section Stable

variable {α : Type}

/-- What the reader took off its input it takes off a longer one. -/
def Stable (p : Reader α) : Prop :=
  ∀ bytes a rest more, p.run bytes = some (a, rest) → p.run (bytes ++ more) = some (a, rest ++ more)

variable {n x : ℕ} {bytes rest : Bytes}

theorem decodeLe_append (h : decodeLe n bytes = some (x, rest)) (more : Bytes) :
    decodeLe n (bytes ++ more) = some (x, rest ++ more) := by
  obtain ⟨rfl, hlt⟩ := decodeLe_eq_some h
  rw [append_assoc, decodeLe_encodeLe hlt]

theorem read_stable (n : ℕ) : Stable (read n) := by
  intro bytes a rest more h
  obtain ⟨⟨x, rest'⟩, hx, h⟩ := map_eq_some_iff.1 h
  cases h
  exact map_eq_some_iff.2 ⟨(x, rest' ++ more), decodeLe_append hx more, rfl⟩

theorem readBytes_stable (n : ℕ) : Stable (readBytes n) := by
  intro bytes a rest more h
  change (if bytes.length < n then none else some (bytes.take n, bytes.drop n)) = _ at h
  split_ifs at h with hlen
  cases h
  change (if (bytes ++ more).length < n then none else _) = _
  rw [if_neg (by rw [length_append]; omega), take_append_of_le_length (not_lt.1 hlen),
    drop_append_of_le_length (not_lt.1 hlen)]

theorem decodeLe_length (h : decodeLe n bytes = some (x, rest)) :
    bytes.length = n + rest.length := by
  obtain ⟨rfl, -⟩ := decodeLe_eq_some h
  rw [length_append, encodeLe_length]

theorem read_length {a : Fin (256 ^ n)} (h : (read n).run bytes = some (a, rest)) :
    bytes.length = n + rest.length := by
  obtain ⟨⟨x, rest'⟩, hx, h⟩ := map_eq_some_iff.1 h
  cases h
  exact decodeLe_length hx

theorem readBytes_length {out : Bytes} (h : (readBytes n).run bytes = some (out, rest)) :
    bytes.length = n + rest.length := by
  change (if bytes.length < n then none else some (bytes.take n, bytes.drop n)) = _ at h
  split_ifs at h with hlen
  cases h
  rw [length_drop]
  omega

end Stable

section Positions

variable {α : Type} {data xs ys : Bytes} {pos : ℕ}

def At (data : Bytes) (pos : ℕ) (bytes : Bytes) : Prop := bytes <+: data.drop pos

theorem at_append (front bytes back : Bytes) : At (front ++ bytes ++ back) front.length bytes := by
  rw [At, append_assoc, drop_left]
  exact prefix_append bytes back

theorem At.drop_eq (h : At data pos xs) : ∃ rest, data.drop pos = xs ++ rest ∧
    data.drop (pos + xs.length) = rest := by
  obtain ⟨rest, hrest⟩ := h
  refine ⟨rest, hrest.symm, ?_⟩
  rw [← drop_drop, ← hrest, drop_left]

theorem at_append_iff : At data pos (xs ++ ys) ↔ At data pos xs ∧ At data (pos + xs.length) ys := by
  constructor
  · intro h
    have hxs : At data pos xs := (prefix_append xs ys).trans h
    obtain ⟨rest, hdrop, hrest⟩ := hxs.drop_eq
    refine ⟨hxs, ?_⟩
    rw [At, hdrop, prefix_append_right_inj] at h
    rwa [At, hrest]
  · rintro ⟨hxs, hys⟩
    obtain ⟨rest, hdrop, hrest⟩ := hxs.drop_eq
    rw [At, hrest] at hys
    rwa [At, hdrop, prefix_append_right_inj]

theorem At.getElem? {b : Fin 256} (h : At data pos (b :: xs)) : data[pos]? = some b := by
  obtain ⟨rest, hdrop, -⟩ := h.drop_eq
  have hget : (data.drop pos)[0]? = some b := by rw [hdrop]; rfl
  rwa [getElem?_drop, add_zero] at hget

theorem At.length_le (h : At data pos xs) (hpos : 0 < xs.length) :
    pos + xs.length ≤ data.length := by
  have hle := List.IsPrefix.length_le h
  rw [length_drop] at hle
  omega

/-- Runs a reader at a position, and gives the position after what it took. -/
def readAt (p : Reader α) (data : Bytes) (pos : ℕ) : Option (α × ℕ) :=
  (p.run (data.drop pos)).map fun x => (x.1, pos + ((data.drop pos).length - x.2.length))

theorem Reads.readAt {p : Reader α} {a : α} (hp : Reads p xs a) (h : At data pos xs) :
    readAt p data pos = some (a, pos + xs.length) := by
  obtain ⟨rest, hdrop, -⟩ := h.drop_eq
  rw [Codec.readAt, hdrop, hp, map_some, length_append, Nat.add_sub_cancel]

theorem guard_eq_some {c : Prop} [Decidable c] (h : c) : (guard c : Option Unit) = some () :=
  if_pos h

theorem guard_bind_eq_some {c : Prop} [Decidable c] {β : Type} {f : Unit → Option β} {x : β} :
    (guard c >>= f) = some x ↔ c ∧ f () = some x := by
  by_cases h : c
  · rw [guard_eq_some h]
    exact (and_iff_right h).symm
  · rw [show (guard c : Option Unit) = none from if_neg h]
    exact ⟨nofun, fun hc => absurd hc.1 h⟩

/-- `data[start..stop]` -/
def slice (data : Bytes) (start stop : ℕ) : Bytes := (data.drop start).take (stop - start)

theorem At.slice (h : At data pos xs) : slice data pos (pos + xs.length) = xs := by
  obtain ⟨rest, hdrop, -⟩ := h.drop_eq
  rw [Codec.slice, hdrop, Nat.add_sub_cancel_left, take_left]

theorem At.flatMap {enc : α → Bytes} {size : ℕ} (hsize : ∀ a, (enc a).length = size)
    {as : List α} (h : At data pos (as.flatMap enc)) {i : ℕ} {a : α} (ha : as[i]? = some a) :
    At data (pos + i * size) (enc a) := by
  induction as generalizing pos i with
  | nil => exact nomatch ha
  | cons b as ih =>
    rw [flatMap_cons, at_append_iff, hsize] at h
    cases i with
    | zero =>
      obtain rfl : b = a := Option.some.inj ha
      rw [zero_mul]
      exact h.1
    | succ i =>
      have hnext := ih h.2 ha
      rwa [succ_mul, add_comm (i * size), ← add_assoc]

end Positions

end Codec
