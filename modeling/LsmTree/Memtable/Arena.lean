import LsmTree.Theory.Transition

/-! `Arena::alloc`: concurrent calls share one cursor, which packs a block index and an offset. -/
namespace LsmTree.Arena

open Nat

inductive PointerWidth where
  | bits32
  | bits64
  deriving DecidableEq, Repr

def blockShift : PointerWidth → ℕ
  | .bits32 => 22
  | .bits64 => 26

def blockSize (w : PointerWidth) : ℕ := 1 <<< blockShift w

def blockMask (w : PointerWidth) : ℕ := blockSize w - 1

def maxBlocks (w : PointerWidth) : ℕ := 1 <<< (32 - blockShift w)

structure Request where
  size : UInt32
  align : UInt32
  deriving DecidableEq, Repr

def isPowerOfTwo (n : UInt32) : Bool := (List.range 32).any fun k => n.toNat = 2 ^ k

def accepts (w : PointerWidth) (r : Request) : Bool :=
  isPowerOfTwo r.align && r.size != 0 && decide (r.size.toNat < blockSize w)

/-- The block that must be there, the cursor to publish, and the offset to return unless the call
only moves on to the next block. -/
structure Plan where
  block : ℕ
  newCursor : ℕ
  offset : Option ℕ
  deriving DecidableEq, Repr

def alignUp (offset align : ℕ) : ℕ :=
  (offset + align - 1) % 2 ^ 32 &&& (2 ^ 32 - 1 - (align - 1))

def shiftBlock (w : PointerWidth) (block : ℕ) : ℕ := (block <<< blockShift w) % 2 ^ 32

/-- What a call makes of the cursor it has loaded; `none` gives up. -/
def plan (w : PointerWidth) (r : Request) (cur : ℕ) : Option Plan :=
  let block := cur >>> blockShift w
  let aligned := alignUp (cur &&& blockMask w) r.align.toNat
  let newEnd := aligned + r.size.toNat
  if 2 ^ 32 ≤ newEnd then none
  else if newEnd < blockSize w then
    some ⟨block, shiftBlock w block ||| newEnd, some (shiftBlock w block ||| aligned)⟩
  else if maxBlocks w ≤ block + 1 then none
  else some ⟨block + 1, shiftBlock w (block + 1), none⟩

inductive Phase where
  | loading (r : Request)
  | creating (r : Request) (cur : ℕ) (p : Plan)
  | swapping (r : Request) (cur : ℕ) (p : Plan)
  deriving DecidableEq, Repr

/-- `blocks` tells which block pointers are set. -/
structure State where
  cursor : ℕ
  blocks : ℕ → Bool
  calls : ℕ → Option Phase
  returned : List (ℕ × Request)

inductive Event where
  | alloc (thread : ℕ) (r : Request)
  | load (thread : ℕ)
  | createBlock (thread : ℕ)
  | swap (thread : ℕ) (fails : Bool)
  deriving DecidableEq, Repr

def initial : State := ⟨1, fun _ => false, fun _ => none, []⟩

def State.go (s : State) (thread : ℕ) (phase : Option Phase) : State :=
  { s with calls := Function.update s.calls thread phase }

def step (w : PointerWidth) (s : State) : Event → Option State
  | .alloc thread r =>
    match s.calls thread with
    | none => some (if accepts w r then s.go thread (some (.loading r)) else s)
    | some _ => none
  | .load thread =>
    match s.calls thread with
    | some (.loading r) => some (s.go thread ((plan w r s.cursor).map (.creating r s.cursor)))
    | _ => none
  | .createBlock thread =>
    match s.calls thread with
    | some (.creating r cur p) =>
      some { s.go thread (some (.swapping r cur p)) with
        blocks := Function.update s.blocks p.block true }
    | _ => none
  | .swap thread fails =>
    match s.calls thread with
    | some (.swapping r cur p) =>
      -- the weak exchange may fail although the cursor has not moved
      if s.cursor = cur ∧ fails = false then
        match p.offset with
        | some offset => some { s.go thread none with
            cursor := p.newCursor
            returned := (offset, r) :: s.returned }
        | none => some { s.go thread (some (.loading r)) with cursor := p.newCursor }
      else some (s.go thread (some (.loading r)))
    | _ => none

section Arithmetic

variable {w : PointerWidth} {r : Request} {cur : ℕ} {p : Plan}

theorem and_not_mask {x k : ℕ} (hx : x < 2 ^ 32) (hk : k < 32) :
    x &&& (2 ^ 32 - 1 - (2 ^ k - 1)) = x / 2 ^ k * 2 ^ k := by
  have hpow : 0 < 2 ^ k := Nat.two_pow_pos k
  have hlt : 2 ^ k < 2 ^ 32 := Nat.pow_lt_pow_right (by omega) hk
  refine eq_of_testBit_eq fun i => ?_
  rw [show 2 ^ 32 - 1 - (2 ^ k - 1) = 2 ^ 32 - ((2 ^ k - 1) + 1) by omega, testBit_and,
    testBit_two_pow_sub_succ (by omega), testBit_two_pow_sub_one, testBit_mul_two_pow,
    testBit_div_two_pow]
  by_cases hi : k ≤ i
  · by_cases h32 : i < 32
    · simp [hi, h32]
    · have hhigh : x < 2 ^ i := hx.trans_le (Nat.pow_le_pow_right (by omega) (not_lt.1 h32))
      simp [hi, Nat.testBit_lt_two_pow hhigh]
  · simp [hi, not_le.mp hi]

theorem alignUp_spec {offset align : ℕ} (ho : offset < 2 ^ 26) (ha : ∃ k < 32, align = 2 ^ k) :
    align ∣ alignUp offset align ∧ offset ≤ alignUp offset align := by
  obtain ⟨k, hk, rfl⟩ := ha
  have hpow : 0 < 2 ^ k := Nat.two_pow_pos k
  have hle : 2 ^ k ≤ 2 ^ 31 := Nat.pow_le_pow_right (by omega) (by omega)
  have hsum : offset + 2 ^ k - 1 < 2 ^ 32 := by omega
  rw [alignUp, mod_eq_of_lt hsum, and_not_mask hsum hk]
  have hdiv := div_add_mod' (offset + 2 ^ k - 1) (2 ^ k)
  have hmod := Nat.mod_lt (offset + 2 ^ k - 1) hpow
  exact ⟨dvd_mul_left _ _, by omega⟩

theorem isPowerOfTwo_iff {n : UInt32} : isPowerOfTwo n = true ↔ ∃ k < 32, n.toNat = 2 ^ k := by
  simp [isPowerOfTwo]

theorem accepts_iff : accepts w r = true ↔
    (∃ k < 32, r.align.toNat = 2 ^ k) ∧ 0 < r.size.toNat ∧ r.size.toNat < blockSize w := by
  have hzero : r.size ≠ 0 ↔ 0 < r.size.toNat := by
    rw [Nat.pos_iff_ne_zero, Ne, Ne, ← UInt32.toNat_inj]
    rfl
  simp [accepts, isPowerOfTwo_iff, hzero, and_assoc]

theorem blockSize_eq : blockSize w = 2 ^ blockShift w := one_shiftLeft _

theorem maxBlocks_mul : maxBlocks w * 2 ^ blockShift w = 2 ^ 32 := by cases w <;> rfl

theorem shiftBlock_eq {block : ℕ} (h : block < maxBlocks w) :
    shiftBlock w block = block * 2 ^ blockShift w := by
  rw [shiftBlock, shiftLeft_eq, mod_eq_of_lt]
  exact (Nat.mul_lt_mul_of_pos_right h (Nat.two_pow_pos _)).trans_eq maxBlocks_mul

theorem shiftBlock_or {block x : ℕ} (h : block < maxBlocks w) (hx : x < blockSize w) :
    shiftBlock w block ||| x = block * 2 ^ blockShift w + x := by
  rw [shiftBlock_eq h, ← shiftLeft_eq, ← shiftLeft_add_eq_or_of_lt (blockSize_eq ▸ hx)]

/-- The bytes lie in one block, which is set. -/
structure Placed (w : PointerWidth) (blocks : ℕ → Bool) (x : ℕ × Request) : Prop where
  created : blocks (x.1 >>> blockShift w) = true
  inside : (x.1 &&& blockMask w) + x.2.size.toNat ≤ blockSize w
  aligned : x.2.align.toNat ∣ x.1 &&& blockMask w
  ne_zero : x.1 ≠ 0

theorem blockMask_and (x : ℕ) : x &&& blockMask w = x % 2 ^ blockShift w := by
  rw [blockMask, blockSize_eq, and_two_pow_sub_one_eq_mod]

theorem decode_encode {block x : ℕ} (hx : x < 2 ^ blockShift w) :
    (block * 2 ^ blockShift w + x) >>> blockShift w = block ∧
      (block * 2 ^ blockShift w + x) &&& blockMask w = x := by
  rw [blockMask_and, shiftRight_eq_div_pow, mul_add_mod', mod_eq_of_lt hx, add_comm,
    add_mul_div_right _ _ (Nat.two_pow_pos _), Nat.div_eq_of_lt hx, zero_add]
  exact ⟨rfl, rfl⟩

theorem encode_lt {block x : ℕ} (hb : block < maxBlocks w) (hx : x < 2 ^ blockShift w) :
    block * 2 ^ blockShift w + x < 2 ^ 32 := by
  have hle := Nat.mul_le_mul_right (2 ^ blockShift w) (succ_le_of_lt hb)
  rw [maxBlocks_mul, succ_mul] at hle
  omega

theorem plan_spec (hr : accepts w r = true) (hcur : cur < 2 ^ 32) (h : plan w r cur = some p) :
    cur < p.newCursor ∧ p.newCursor < 2 ^ 32 ∧ ∀ offset, p.offset = some offset →
      cur ≤ offset ∧ offset + r.size.toNat ≤ p.newCursor ∧
        ∀ blocks, blocks p.block = true → 0 < cur → Placed w blocks (offset, r) := by
  obtain ⟨halign, hsize, -⟩ := accepts_iff.1 hr
  have hB := Nat.two_pow_pos (blockShift w)
  have hshift : 2 ^ blockShift w ≤ 2 ^ 26 := by cases w <;> decide
  have hdiv := div_add_mod' cur (2 ^ blockShift w)
  have hmod := Nat.mod_lt cur hB
  have hblock : cur / 2 ^ blockShift w < maxBlocks w :=
    Nat.div_lt_of_lt_mul (by rwa [mul_comm, maxBlocks_mul])
  simp only [plan, blockMask_and, shiftRight_eq_div_pow] at h
  obtain ⟨hdvd, hge⟩ := alignUp_spec (hmod.trans_le hshift) halign
  generalize alignUp (cur % 2 ^ blockShift w) r.align.toNat = aligned at h hdvd hge
  generalize hb : cur / 2 ^ blockShift w = block at h hdiv hblock
  by_cases hover : 2 ^ 32 ≤ aligned + r.size.toNat
  · rw [if_pos hover] at h
    cases h
  rw [if_neg hover] at h
  by_cases hfits : aligned + r.size.toNat < blockSize w
  · rw [if_pos hfits, shiftBlock_or hblock hfits, shiftBlock_or hblock (by omega)] at h
    cases h
    rw [blockSize_eq] at hfits
    refine ⟨by dsimp only; omega, encode_lt hblock hfits, fun offset ho => ?_⟩
    cases ho
    obtain ⟨hindex, hinside⟩ := @decode_encode w block aligned (by omega)
    exact ⟨by omega, by dsimp only; omega, fun blocks hset hpos =>
      ⟨by rwa [hindex], by rw [hinside, blockSize_eq]; exact hfits.le, by rwa [hinside],
        by dsimp only; omega⟩⟩
  · rw [if_neg hfits] at h
    by_cases hlast : maxBlocks w ≤ block + 1
    · rw [if_pos hlast] at h
      cases h
    · rw [if_neg hlast, shiftBlock_eq (not_le.1 hlast)] at h
      cases h
      refine ⟨?_, encode_lt (not_le.1 hlast) hB, nofun⟩
      dsimp only
      rw [succ_mul]
      omega

end Arithmetic

/-- A plan belongs to the cursor its call has read, which may have moved since. -/
def PhaseOk (w : PointerWidth) (s : State) : Phase → Prop
  | .loading r => accepts w r = true
  | .creating r cur p => accepts w r = true ∧ plan w r cur = some p
  | .swapping r cur p => accepts w r = true ∧ plan w r cur = some p ∧ s.blocks p.block = true

structure Safety (w : PointerWidth) (s : State) : Prop where
  cursor_pos : 0 < s.cursor
  cursor_lt : s.cursor < 2 ^ 32
  phases : ∀ thread phase, s.calls thread = some phase → PhaseOk w s phase
  below : ∀ x ∈ s.returned, x.1 + x.2.size.toNat ≤ s.cursor
  disjoint : s.returned.Pairwise fun a b => b.1 + b.2.size.toNat ≤ a.1
  placed : ∀ x ∈ s.returned, Placed w s.blocks x

section Steps

variable {w : PointerWidth} {s s' : State} {thread : ℕ}

theorem initial_safe : Safety w initial :=
  ⟨by decide, by decide, nofun, nofun, .nil, nofun⟩

theorem Safety.go (hs : Safety w s) {phase : Option Phase}
    (hphase : ∀ p, phase = some p → PhaseOk w s p) : Safety w (s.go thread phase) := by
  refine ⟨hs.cursor_pos, hs.cursor_lt, fun other p hp => ?_, hs.below, hs.disjoint, hs.placed⟩
  have hok : PhaseOk w s p := by
    rcases eq_or_ne other thread with rfl | hne
    · exact hphase p (by simpa [State.go] using hp)
    · exact hs.phases other p (by simpa [State.go, hne] using hp)
  exact hok

theorem Safety.createBlock (hs : Safety w s) (block : ℕ) :
    Safety w { s with blocks := Function.update s.blocks block true } := by
  have hset : ∀ b, s.blocks b = true → Function.update s.blocks block true b = true := by
    intro b hb
    rw [Function.update_apply]
    split <;> trivial
  refine { hs with
    phases := fun other p hp => ?_
    placed := fun x hx => { hs.placed x hx with created := hset _ (hs.placed x hx).created } }
  have hok := hs.phases other p hp
  cases p with
  | loading | creating => exact hok
  | swapping => exact ⟨hok.1, hok.2.1, hset _ hok.2.2⟩

/-- Nothing but the ranges returned so far speaks of the present cursor, and they end below it. -/
theorem Safety.publish (hs : Safety w s) {cursor : ℕ} (hle : s.cursor ≤ cursor)
    (hlt : cursor < 2 ^ 32) : Safety w { s with cursor := cursor } :=
  { hs with
    cursor_pos := hs.cursor_pos.trans_le hle
    cursor_lt := hlt
    below := fun x hx => (hs.below x hx).trans hle }

theorem step_safe (hs : Safety w s) {e : Event} (h : step w s e = some s') : Safety w s' := by
  cases e with
  | alloc thread r =>
    simp only [step] at h
    split at h
    · cases h
      split
      · exact hs.go fun p hp => by cases hp; assumption
      · exact hs
    · cases h
  | load thread =>
    simp only [step] at h
    split at h
    · rename_i r hcall
      cases h
      refine hs.go fun p hp => ?_
      obtain ⟨q, hq, rfl⟩ := Option.map_eq_some_iff.1 hp
      exact ⟨hs.phases thread _ hcall, hq⟩
    · cases h
  | createBlock thread =>
    simp only [step] at h
    split at h
    · rename_i r cur p hcall
      cases h
      obtain ⟨hr, hplan⟩ := hs.phases thread _ hcall
      refine (hs.createBlock p.block).go fun q hq => ?_
      cases hq
      exact ⟨hr, hplan, Function.update_self _ _ _⟩
    · cases h
  | swap thread fails =>
    simp only [step] at h
    split at h
    · rename_i r cur p hcall
      obtain ⟨hr, hplan, hset⟩ := hs.phases thread _ hcall
      split at h
      · rename_i hcur
        obtain ⟨rfl, -⟩ := hcur
        obtain ⟨hnew, hlt, hoffset⟩ := plan_spec hr hs.cursor_lt hplan
        have hpub := hs.publish hnew.le hlt
        split at h
        · rename_i offset ho
          obtain ⟨hcur, hend, hplaced⟩ := hoffset offset ho
          cases h
          have hgo : Safety w (State.go { s with cursor := p.newCursor } thread none) :=
            hpub.go nofun
          -- every range returned before ends at or below the cursor the call has read
          exact { hgo with
            below := List.forall_mem_cons.2 ⟨hend, hgo.below⟩
            disjoint := hs.disjoint.cons fun x hx => (hs.below x hx).trans hcur
            placed := List.forall_mem_cons.2 ⟨hplaced s.blocks hset hs.cursor_pos, hs.placed⟩ }
        · cases h
          exact hpub.go fun q hq => by cases hq; exact hr
      · cases h
        exact hs.go fun q hq => by cases hq; exact hr
    · cases h

theorem returned_disjoint {events : List Event}
    (h : Transition.exec (step w) initial events = some s) :
    (s.returned.Pairwise fun a b =>
      a.1 + a.2.size.toNat ≤ b.1 ∨ b.1 + b.2.size.toNat ≤ a.1) ∧
      ∀ x ∈ s.returned, Placed w s.blocks x := by
  have hs : Safety w s := (Transition.run_of_exec h).invariant
    (fun _ _ _ hs _ hstep => step_safe hs hstep) initial_safe
  exact ⟨hs.disjoint.imp .inr, hs.placed⟩

/-- Two calls race for the cursor and the one that loses starts over. -/
def race : List Event :=
  [.alloc 0 ⟨8, 4⟩, .alloc 1 ⟨8, 4⟩, .load 0, .load 1, .createBlock 1, .swap 1 false,
    .createBlock 0, .swap 0 false, .load 0, .createBlock 0, .swap 0 false]

theorem race_disjoint : ∃ s, Transition.exec (step .bits64) initial race = some s ∧
    s.returned.map Prod.fst = [12, 4] ∧
      (s.returned.Pairwise fun a b =>
        a.1 + a.2.size.toNat ≤ b.1 ∨ b.1 + b.2.size.toNat ≤ a.1) ∧
        ∀ x ∈ s.returned, Placed .bits64 s.blocks x := by
  have hrace : ((Transition.exec (step .bits64) initial race).map fun s =>
      s.returned.map Prod.fst) = some [12, 4] := by decide +kernel
  obtain ⟨s, hs, hreturned⟩ := Option.map_eq_some_iff.1 hrace
  exact ⟨s, hs, hreturned, returned_disjoint hs⟩

end Steps

end LsmTree.Arena
