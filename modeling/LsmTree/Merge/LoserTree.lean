import Mathlib

/-! The tournament tree of the merging iterators. -/
namespace LsmTree

open Function Nat

structure LoserTree (E : Type*) where
  height : ℕ
  leaves : ℕ → Option E
  tree : ℕ → ℕ
  active : ℕ

namespace LoserTree

variable {E : Type*} (cmp : E → E → Ordering)

/-- An absent leaf loses to every present one. -/
def cmpIndices (leaves : ℕ → Option E) (a b : ℕ) : Ordering :=
  match leaves a, leaves b with
  | some x, some y => cmp x y
  | some _, none => .lt
  | none, some _ => .gt
  | none, none => .eq

/-- Plays the games of the subtree of `node` over the `2 ^ h` leaves from `lo` on. -/
def buildSubtree (leaves : ℕ → Option E) : ℕ → ℕ → ℕ → (ℕ → ℕ) → ℕ × (ℕ → ℕ)
  | 0, _, lo, tree => (lo, tree)
  | h + 1, node, lo, tree =>
    let left := buildSubtree leaves h (2 * node) lo tree
    let right := buildSubtree leaves h (2 * node + 1) (lo + 2 ^ h) left.2
    let game := if cmpIndices cmp leaves left.1 right.1 = .gt then (right.1, left.1)
      else (left.1, right.1)
    let tree := update right.2 node game.2
    (game.1, if node = 1 then update tree 0 game.1 else tree)

/-- The capacity is the next power of two, at least 2. -/
def heightFor (n : ℕ) : ℕ :=
  ((List.range (n + 2)).find? fun h => decide (1 ≤ h ∧ n ≤ 2 ^ h)).getD 1

def build (initial : List (Option E)) : LoserTree E where
  height := heightFor initial.length
  leaves := fun i => initial[i]?.join
  tree := (buildSubtree cmp (fun i => initial[i]?.join) (heightFor initial.length) 1 0
    fun _ => 0).2
  active := initial.countP (·.isSome)

/-- The loop of `replay`: one game on each level from `node` to the root. -/
def replayLoop (leaves : ℕ → Option E) : ℕ → ℕ → ℕ → (ℕ → ℕ) → (ℕ → ℕ)
  | 0, _, winner, tree => update tree 0 winner
  | levels + 1, node, winner, tree =>
    if cmpIndices cmp leaves (tree node) winner = .lt then
      replayLoop leaves levels (node / 2) (tree node) (update tree node winner)
    else replayLoop leaves levels (node / 2) winner tree

def replay (t : LoserTree E) (leaf : ℕ) : LoserTree E :=
  { t with tree := replayLoop cmp t.leaves t.height ((2 ^ t.height + leaf) / 2) leaf t.tree }

def winnerSlot (t : LoserTree E) : Option ℕ := if t.active = 0 then none else some (t.tree 0)

def peekSlot (t : LoserTree E) (slot : ℕ) : Option E := t.leaves slot

def put (t : LoserTree E) (slot : ℕ) (leaf : Option E) (active : ℕ) : LoserTree E :=
  replay cmp { t with leaves := update t.leaves slot leaf, active := active } slot

/-- `none` stands for the panic on an empty tree and for reading a leaf that is not there. -/
def replaceMin (t : LoserTree E) (new : E) : Option (E × LoserTree E) :=
  t.winnerSlot.bind fun slot => (t.leaves slot).map fun old =>
    (old, t.put cmp slot (some new) t.active)

/-- The outer `none` stands for reading a leaf that is not there. -/
def popMin (t : LoserTree E) : Option (Option E × LoserTree E) :=
  match t.winnerSlot with
  | none => some (none, t)
  | some slot => (t.leaves slot).map fun old => (some old, t.put cmp slot none (t.active - 1))

/-- Takes the leaf of a slot, winner or not. -/
def takeSlot (t : LoserTree E) (slot : ℕ) : Option E × LoserTree E :=
  match t.leaves slot with
  | none => (none, t)
  | some taken => (some taken, t.put cmp slot none (t.active - 1))

/-! ### Positions in the array -/

def Above (x c : ℕ) : Prop := ∃ j, c / 2 ^ j = x

theorem Above.refl (c : ℕ) : Above c c := ⟨0, by simp⟩

variable {x c : ℕ}

theorem Above.half (h : Above x c) : Above (x / 2) c := by
  obtain ⟨j, rfl⟩ := h
  exact ⟨j + 1, by rw [pow_succ, Nat.div_div_eq_div_mul]⟩

theorem Above.le (h : Above x c) : x ≤ c := by
  obtain ⟨j, rfl⟩ := h
  exact div_le_self _ _

variable {y : ℕ}

theorem Above.trans (h : Above x y) (h' : Above y c) : Above x c := by
  obtain ⟨i, rfl⟩ := h
  obtain ⟨j, rfl⟩ := h'
  exact ⟨j + i, by rw [pow_add, Nat.div_div_eq_div_mul]⟩

theorem Above.of_half (h : Above x (c / 2)) : Above x c := h.trans (Above.refl c).half

theorem above_double (n : ℕ) : Above n (2 * n) :=
  Above.of_half (by rw [Nat.mul_div_cancel_left n two_pos]; exact Above.refl n)

theorem above_double_succ (n : ℕ) : Above n (2 * n + 1) :=
  Above.of_half (by rw [show (2 * n + 1) / 2 = n by omega]; exact Above.refl n)

theorem Above.of_double (h : Above x c) : x = c ∨ Above x (c / 2) := by
  obtain ⟨j, rfl⟩ := h
  cases j with
  | zero => exact Or.inl (by simp)
  | succ j => exact Or.inr ⟨j, by rw [Nat.div_div_eq_div_mul, pow_succ, mul_comm]⟩

theorem Above.total (hx : Above x c) (hy : Above y c) : Above x y ∨ Above y x := by
  obtain ⟨i, rfl⟩ := hx
  obtain ⟨j, rfl⟩ := hy
  rcases le_total i j with h | h
  · refine Or.inr ⟨j - i, ?_⟩
    rw [Nat.div_div_eq_div_mul, ← pow_add, Nat.add_sub_cancel' h]
  · refine Or.inl ⟨i - j, ?_⟩
    rw [Nat.div_div_eq_div_mul, ← pow_add, Nat.add_sub_cancel' h]

variable {n : ℕ}

theorem not_above_siblings (hn : 1 ≤ n) (hl : Above (2 * n) c) :
    ¬ Above (2 * n + 1) c := by
  intro hr
  rcases hl.total hr with h | h
  · rcases h.of_double with h | h
    · omega
    · have := h.le
      omega
  · have := h.le
    omega

theorem one_above (hc : 1 ≤ c) : Above 1 c := by
  induction c using Nat.strong_induction_on with
  | _ c ih =>
    rcases Nat.lt_or_ge 1 c with h | h
    · exact (ih (c / 2) (by omega) (by omega)).of_half
    · rw [show c = 1 by omega]
      exact Above.refl 1

theorem Above.child (h : Above n c) (hne : n ≠ c) (hn : 1 ≤ n) :
    Above (2 * n) c ∨ Above (2 * n + 1) c := by
  induction c using Nat.strong_induction_on with
  | _ c ih =>
    rcases h.of_double with h | h
    · exact absurd h hne
    · have hle := h.le
      by_cases heq : n = c / 2
      · rcases mod_two_eq_zero_or_one c with hk | hk
        · exact Or.inl (by rw [show 2 * n = c by omega]; exact Above.refl c)
        · exact Or.inr (by rw [show 2 * n + 1 = c by omega]; exact Above.refl c)
      · exact (ih (c / 2) (by omega) h heq).imp Above.of_half Above.of_half

/-! ### The games -/

section Games

variable {cmp} {leaves : ℕ → Option E} {height : ℕ} {tree w : ℕ → ℕ} {a b c : ℕ}

def Wins (cmp : E → E → Ordering) (leaves : ℕ → Option E) (a b : ℕ) : Prop :=
  cmpIndices cmp leaves a b ≠ .gt

/-- `w` names the winner of every subtree, and the node stores the loser of its game. -/
structure Game (cmp : E → E → Ordering) (leaves : ℕ → Option E) (tree w : ℕ → ℕ) (n : ℕ) :
    Prop where
  sides : w n = w (2 * n) ∧ tree n = w (2 * n + 1) ∨ w n = w (2 * n + 1) ∧ tree n = w (2 * n)
  order : Wins cmp leaves (w n) (tree n)

structure Games (cmp : E → E → Ordering) (leaves : ℕ → Option E) (height : ℕ)
    (tree w : ℕ → ℕ) : Prop where
  leaf : ∀ i, i < 2 ^ height → w (2 ^ height + i) = i
  game : ∀ n, 1 ≤ n → n < 2 ^ height → Game cmp leaves tree w n
  root : tree 0 = w 1

theorem Wins.congr {leaves' : ℕ → Option E} (h : Wins cmp leaves a b) (ha : leaves' a = leaves a)
    (hb : leaves' b = leaves b) : Wins cmp leaves' a b := by
  unfold Wins cmpIndices at *
  rw [ha, hb]
  exact h

variable {n : ℕ}

theorem winner_below (hleaf : ∀ i, i < 2 ^ height → w (2 ^ height + i) = i)
    (hgame : ∀ m, n ≤ m → m < 2 ^ height → Game cmp leaves tree w m) (hn : 1 ≤ n)
    (hlt : n < 2 ^ (height + 1)) :
    w n < 2 ^ height ∧ Above n (2 ^ height + w n) := by
  obtain ⟨k, hk⟩ : ∃ k, k = 2 ^ (height + 1) - n := ⟨_, rfl⟩
  induction k using Nat.strong_induction_on generalizing n with
  | _ k ih =>
    rw [pow_succ] at hlt hk ih
    rcases Nat.lt_or_ge n (2 ^ height) with h | h
    · have hchild : ∀ m, m = 2 * n ∨ m = 2 * n + 1 → w m < 2 ^ height ∧
          Above m (2 ^ height + w m) := by
        intro m hm
        exact ih _ (by omega) (fun m' hm' => hgame m' (by omega)) (by omega) (by omega) rfl
      rcases (hgame n (le_refl n) h).sides with ⟨hw, -⟩ | ⟨hw, -⟩
      · obtain ⟨h1, h2⟩ := hchild (2 * n) (Or.inl rfl)
        exact hw ▸ ⟨h1, (above_double n).trans h2⟩
      · obtain ⟨h1, h2⟩ := hchild (2 * n + 1) (Or.inr rfl)
        exact hw ▸ ⟨h1, (above_double_succ n).trans h2⟩
    · obtain ⟨i, rfl⟩ := Nat.exists_eq_add_of_le h
      have hi : i < 2 ^ height := by omega
      rw [hleaf i hi]
      exact ⟨hi, Above.refl _⟩

theorem Games.below (h : Games cmp leaves height tree w) (hn : 1 ≤ n) (hlt : n < 2 ^ (height + 1)) :
    w n < 2 ^ height ∧ Above n (2 ^ height + w n) :=
  winner_below h.leaf (fun m hm hlt => h.game m (hn.trans hm) hlt) hn hlt

variable {slot : ℕ}

theorem Games.on_path (h : Games cmp leaves height tree w) (hslot : slot < 2 ^ height)
    (hroot : w 1 = slot) {x : ℕ} (hx : 1 ≤ x) (habove : Above x (2 ^ height + slot)) :
    w x = slot := by
  induction x using Nat.strong_induction_on with
  | _ x ih =>
    rcases Nat.lt_or_ge 1 x with hx1 | hx1
    · have hhalf := ih (x / 2) (by omega) (by omega) habove.half
      have hle := habove.le
      have hlt : x < 2 ^ (height + 1) := by rw [pow_succ]; omega
      have hgame := (h.game (x / 2) (by omega) (by rw [pow_succ] at hlt; omega)).sides
      -- the other child of the parent is not on the path, so it is not the slot's subtree
      have hsib : ∀ y, y < 2 ^ (height + 1) → 1 ≤ y → w y = slot → Above y (2 ^ height + slot) := by
        intro y hy h1 hw
        exact hw ▸ (h.below h1 hy).2
      rcases mod_two_eq_zero_or_one x with hmod | hmod
      · rw [show 2 * (x / 2) = x by omega] at hgame
        rcases hgame with ⟨hw, -⟩ | ⟨hw, -⟩
        · exact hw ▸ hhalf
        · have := hsib (x + 1) (by rw [pow_succ] at *; omega) (by omega) (hw ▸ hhalf)
          refine absurd this ?_
          have := not_above_siblings (n := x / 2) (c := 2 ^ height + slot) (by omega)
          rw [show 2 * (x / 2) = x by omega] at this
          exact this habove
      · rw [show 2 * (x / 2) + 1 = x by omega] at hgame
        rcases hgame with ⟨hw, -⟩ | ⟨hw, -⟩
        · have := hsib (2 * (x / 2)) (by omega) (by omega) (hw ▸ hhalf)
          refine absurd habove ?_
          have := not_above_siblings (n := x / 2) (by omega) this
          rw [show 2 * (x / 2) + 1 = x by omega] at this
          exact this
        · exact hw ▸ hhalf
    · rw [show x = 1 by omega]
      exact hroot

/-- Every game is settled but those on the path above `c`. -/
structure Pending (cmp : E → E → Ordering) (leaves : ℕ → Option E) (height : ℕ)
    (tree w : ℕ → ℕ) (c : ℕ) : Prop where
  leaf : ∀ i, i < 2 ^ height → w (2 ^ height + i) = i
  game : ∀ n, 1 ≤ n → n < 2 ^ height → (Above n c → n = c) → Game cmp leaves tree w n
  left : ∀ n, 1 ≤ n → Above (2 * n) c → tree n = w (2 * n + 1)
  right : ∀ n, 1 ≤ n → Above (2 * n + 1) c → tree n = w (2 * n)

theorem Games.pending (h : Games cmp leaves height tree w) (hslot : slot < 2 ^ height)
    (hroot : tree 0 = slot) (leaf : Option E) :
    Pending cmp (update leaves slot leaf) height tree w (2 ^ height + slot) := by
  have hpath : ∀ x, 1 ≤ x → Above x (2 ^ height + slot) → w x = slot := fun x hx =>
    h.on_path hslot (h.root ▸ hroot) hx
  have hoff : ∀ x, 1 ≤ x → x < 2 ^ (height + 1) → ¬ Above x (2 ^ height + slot) → w x ≠ slot := by
    intro x hx hlt hnot hw
    exact hnot (hw ▸ (h.below hx hlt).2)
  have hlt : ∀ x, Above x (2 ^ height + slot) → x < 2 ^ (height + 1) := by
    intro x hx
    have := hx.le
    rw [pow_succ]
    omega
  refine ⟨h.leaf, ?_, ?_, ?_⟩
  · intro n hn hnlt hnot
    have hn2 : ∀ m, m = 2 * n ∨ m = 2 * n + 1 → ¬ Above m (2 ^ height + slot) := by
      intro m hm habove
      have hhalf := habove.half
      rw [show m / 2 = n by omega] at hhalf
      have := hnot hhalf
      omega
    have hl := hoff (2 * n) (by omega) (by rw [pow_succ]; omega) (hn2 _ (Or.inl rfl))
    have hr := hoff (2 * n + 1) (by omega) (by rw [pow_succ]; omega) (hn2 _ (Or.inr rfl))
    obtain ⟨hsides, horder⟩ := h.game n hn hnlt
    have hne : w n ≠ slot ∧ tree n ≠ slot := by
      rcases hsides with ⟨h1, h2⟩ | ⟨h1, h2⟩
      · exact ⟨h1 ▸ hl, h2 ▸ hr⟩
      · exact ⟨h1 ▸ hr, h2 ▸ hl⟩
    exact ⟨hsides, horder.congr (update_of_ne hne.1 _ _)
      (update_of_ne hne.2 _ _)⟩
  · intro n hn habove
    have hn' := (above_double n).trans habove
    have hnlt := hlt _ habove
    rw [pow_succ] at hnlt
    rcases (h.game n hn (by omega)).sides with ⟨-, h2⟩ | ⟨h1, -⟩
    · exact h2
    · refine absurd (h1 ▸ hpath n hn hn') (hoff _ (by omega) ?_ (not_above_siblings hn habove))
      rw [pow_succ]
      omega
  · intro n hn habove
    have hn' := (above_double_succ n).trans habove
    have hnlt := hlt _ habove
    rw [pow_succ] at hnlt
    rcases (h.game n hn (by omega)).sides with ⟨h1, -⟩ | ⟨-, h2⟩
    · refine absurd (h1 ▸ hpath n hn hn') (hoff _ (by omega) ?_
        fun hl => not_above_siblings hn hl habove)
      rw [pow_succ]
      omega
    · exact h2

variable {win : ℕ}

theorem Pending.step (h : Pending cmp leaves height tree w c) (hlt : c < 2 ^ (height + 1))
    {lose : ℕ} (hsides : win = w c ∧ lose = tree (c / 2) ∨ win = tree (c / 2) ∧ lose = w c)
    (horder : Wins cmp leaves win lose) :
    Pending cmp leaves height (update tree (c / 2) lose)
      (update w (c / 2) win) (c / 2) := by
  rw [pow_succ] at hlt
  have hw : ∀ x, x ≠ c / 2 → update w (c / 2) win x = w x :=
    fun x hx => update_of_ne hx _ _
  have ht : ∀ x, x ≠ c / 2 → update tree (c / 2) lose x = tree x :=
    fun x hx => update_of_ne hx _ _
  refine ⟨?_, ?_, ?_, ?_⟩
  · intro i hi
    rw [hw _ (by omega)]
    exact h.leaf i hi
  · intro n hn hnlt hnot
    by_cases hnc : n = c / 2
    · subst hnc
      refine ⟨?_, ?_⟩
      · rw [update_self, update_self, hw _ (by omega), hw _ (by omega)]
        rcases mod_two_eq_zero_or_one c with hmod | hmod
        · have htree := h.left (c / 2) hn (by rw [show 2 * (c / 2) = c by omega]; exact Above.refl c)
          rw [← htree, show 2 * (c / 2) = c by omega]
          exact hsides
        · have htree := h.right (c / 2) hn
            (by rw [show 2 * (c / 2) + 1 = c by omega]; exact Above.refl c)
          rw [← htree, show 2 * (c / 2) + 1 = c by omega]
          exact hsides.symm
      · rw [update_self, update_self]
        exact horder
    · have hne : ∀ m, m = 2 * n ∨ m = 2 * n + 1 → m ≠ c / 2 := by
        intro m hm heq
        have hhalf := (Above.refl (c / 2)).half
        rw [← heq, show m / 2 = n by omega, heq] at hhalf
        exact hnc (hnot hhalf)
      obtain ⟨hs, ho⟩ := h.game n hn hnlt (fun hab => by
        rcases hab.of_double with hab | hab
        · exact hab
        · exact absurd (hnot hab) hnc)
      refine ⟨?_, ?_⟩
      · rw [hw n hnc, ht n hnc, hw _ (hne _ (Or.inl rfl)), hw _ (hne _ (Or.inr rfl))]
        exact hs
      · rw [hw n hnc, ht n hnc]
        exact ho
  · intro n hn hab
    have hle := hab.le
    have hsib : 2 * n + 1 ≠ c / 2 := fun heq =>
      not_above_siblings hn hab (heq ▸ Above.refl (c / 2))
    rw [ht n (by omega), hw _ hsib]
    exact h.left n hn hab.of_half
  · intro n hn hab
    have hle := hab.le
    rw [ht n (by omega), hw _ (by omega)]
    exact h.right n hn hab.of_half

variable [Std.OrientedCmp cmp]

theorem cmpIndices_swap : (cmpIndices cmp leaves a b).swap = cmpIndices cmp leaves b a := by
  unfold cmpIndices
  cases leaves a <;> cases leaves b <;> try rfl
  exact Std.OrientedCmp.eq_swap.symm

theorem wins_of_not_lt (h : cmpIndices cmp leaves b a ≠ .lt) : Wins cmp leaves a b := by
  intro hgt
  apply h
  rw [← cmpIndices_swap, hgt]
  rfl

variable {levels node : ℕ}

theorem replayLoop_games {winner : ℕ} (h : Pending cmp leaves height tree w c) (hw : w c = winner)
    (hnode : node = c / 2) (hlo : 2 ^ levels ≤ c) (hhi : c < 2 ^ (levels + 1))
    (hlevels : levels ≤ height) :
    ∃ w', Games cmp leaves height (replayLoop cmp leaves levels node winner tree) w' := by
  induction levels generalizing tree w c node winner with
  | zero =>
    obtain rfl : c = 1 := by omega
    refine ⟨w, h.leaf, ?_, ?_⟩
    · intro n hn hlt
      obtain ⟨hs, ho⟩ := h.game n hn hlt fun hab => by
        have := hab.le
        omega
      have htree : replayLoop cmp leaves 0 node winner tree n = tree n :=
        update_of_ne (by omega) _ _
      exact ⟨htree ▸ hs, htree ▸ ho⟩
    · exact (update_self _ _ _).trans hw.symm
  | succ levels ih =>
    rw [pow_succ] at hlo hhi
    have hpos : 1 ≤ 2 ^ levels := Nat.one_le_two_pow
    have hcap : c < 2 ^ (height + 1) := by
      refine Nat.lt_of_lt_of_le hhi ?_
      rw [← pow_succ]
      exact Nat.pow_le_pow_right (by omega) (by omega)
    subst hnode hw
    simp only [replayLoop]
    split
    case isTrue hlt =>
      refine ih (h.step hcap (Or.inr ⟨rfl, rfl⟩) ?_) (update_self _ _ _) rfl
        (by omega) (by omega) (by omega)
      simp [Wins, hlt]
    case isFalse hlt =>
      have hstep := h.step hcap (Or.inl ⟨rfl, rfl⟩) (wins_of_not_lt hlt)
      rw [update_eq_self] at hstep
      exact ih hstep (update_self _ _ _) rfl (by omega) (by omega) (by omega)

structure Built (cmp : E → E → Ordering) (leaves : ℕ → Option E) (height node : ℕ)
    (before after w : ℕ → ℕ) (winner : ℕ) : Prop where
  leaf : ∀ i, i < 2 ^ height → Above node (2 ^ height + i) → w (2 ^ height + i) = i
  game : ∀ n, n < 2 ^ height → Above node n → Game cmp leaves after w n
  won : w node = winner
  root : node = 1 → 1 < 2 ^ height → after 0 = winner
  frame : ∀ n, n ≠ 0 → ¬ Above node n → after n = before n

omit [Std.OrientedCmp cmp] in
open Classical in
theorem Built.join {l r : ℕ} (lose : ℕ) {before mid last after wl wr : ℕ → ℕ} (hnode : 1 ≤ node)
    (hl : Built cmp leaves height (2 * node) before mid wl l)
    (hr : Built cmp leaves height (2 * node + 1) mid last wr r)
    (hsides : win = l ∧ lose = r ∨ win = r ∧ lose = l) (horder : Wins cmp leaves win lose)
    (hself : after node = lose) (hother : ∀ n, n ≠ 0 → n ≠ node → after n = last n)
    (hroot : node = 1 → after 0 = win) (hlt : node < 2 ^ height) :
    ∃ w, Built cmp leaves height node before after w win := by
  obtain ⟨w, hw⟩ : ∃ w : ℕ → ℕ, w = fun x => if x = node then win
      else if Above (2 * node) x then wl x else wr x := ⟨_, rfl⟩
  have hwn : w node = win := by simp [hw]
  have hwl : ∀ x, Above (2 * node) x → w x = wl x := by
    intro x hx
    have := hx.le
    rw [hw]
    dsimp only
    rw [if_neg (by omega), if_pos hx]
  have hwr : ∀ x, Above (2 * node + 1) x → w x = wr x := by
    intro x hx
    have := hx.le
    rw [hw]
    dsimp only
    rw [if_neg (by omega), if_neg fun hx' => not_above_siblings hnode hx' hx]
  have hmid : ∀ x, Above (2 * node) x → last x = mid x := by
    intro x hx
    have := hx.le
    exact hr.frame x (by omega) (not_above_siblings hnode hx)
  have hafter : ∀ x, Above (2 * node) x ∨ Above (2 * node + 1) x → after x = last x := by
    rintro x (hx | hx)
    · have := hx.le
      exact hother x (by omega) (by omega)
    · have := hx.le
      exact hother x (by omega) (by omega)
  have hdown : ∀ {a x : ℕ}, Above a x → Above a (2 * x) ∧ Above a (2 * x + 1) := fun hx =>
    ⟨hx.trans (above_double _), hx.trans (above_double_succ _)⟩
  refine ⟨w, ?_, ?_, hwn, fun h1 _ => hroot h1, ?_⟩
  · intro i hi hab
    rcases hab.child (by omega) hnode with hab | hab
    · rw [hwl _ hab]
      exact hl.leaf i hi hab
    · rw [hwr _ hab]
      exact hr.leaf i hi hab
  · intro n hn hab
    by_cases hne : node = n
    · subst hne
      have h2 := hwl _ (Above.refl (2 * node))
      have h3 := hwr _ (Above.refl (2 * node + 1))
      rw [hl.won] at h2
      rw [hr.won] at h3
      refine ⟨?_, ?_⟩
      · rw [hwn, hself, h2, h3]
        exact hsides
      · rw [hwn, hself]
        exact horder
    · rcases hab.child hne hnode with hab | hab
      · obtain ⟨hs, ho⟩ := hl.game n hn hab
        have htree : after n = mid n := (hafter n (Or.inl hab)).trans (hmid n hab)
        refine ⟨?_, ?_⟩
        · rw [hwl n hab, htree, hwl _ (hdown hab).1, hwl _ (hdown hab).2]
          exact hs
        · rw [hwl n hab, htree]
          exact ho
      · obtain ⟨hs, ho⟩ := hr.game n hn hab
        have htree := hafter n (Or.inr hab)
        refine ⟨?_, ?_⟩
        · rw [hwr n hab, htree, hwr _ (hdown hab).1, hwr _ (hdown hab).2]
          exact hs
        · rw [hwr n hab, htree]
          exact ho
  · intro n h0 hnot
    have hne : n ≠ node := fun h => hnot (h ▸ Above.refl n)
    rw [hother n h0 hne, hr.frame n h0 fun hab => hnot ((above_double_succ node).trans hab),
      hl.frame n h0 fun hab => hnot ((above_double node).trans hab)]

theorem buildSubtree_built {h lo : ℕ} (hnode : 1 ≤ node) (hlo : node * 2 ^ h = 2 ^ height + lo)
    (hhi : lo + 2 ^ h ≤ 2 ^ height) :
    ∃ w, Built cmp leaves height node tree (buildSubtree cmp leaves h node lo tree).2 w
      (buildSubtree cmp leaves h node lo tree).1 := by
  induction h generalizing node lo tree with
  | zero =>
    rw [pow_zero] at hlo hhi
    refine ⟨fun _ => lo, ?_, ?_, rfl, ?_, fun _ _ _ => rfl⟩
    · intro i hi hab
      rcases hab.of_double with hab | hab
      · omega
      · have := hab.le
        omega
    · intro n hn hab
      have := hab.le
      omega
    · omega
  | succ h ih =>
    rw [pow_succ] at hlo hhi
    have hpos := Nat.one_le_two_pow (n := h)
    have hloL : 2 * node * 2 ^ h = 2 ^ height + lo := by
      rw [← hlo]
      ring
    have hloR : (2 * node + 1) * 2 ^ h = 2 ^ height + (lo + 2 ^ h) := by
      rw [add_mul, hloL]
      omega
    have hnlt : node < 2 ^ height := by
      have : 2 * node * 1 ≤ 2 * node * 2 ^ h := mul_le_mul_left _ hpos
      omega
    obtain ⟨wl, hl⟩ := ih (by omega) hloL (by omega)
    obtain ⟨wr, hr⟩ := ih (by omega) hloR (by omega)
    simp only [buildSubtree]
    set left := buildSubtree cmp leaves h (2 * node) lo tree with hleft
    set right := buildSubtree cmp leaves h (2 * node + 1) (lo + 2 ^ h) left.2 with hright
    set game := if cmpIndices cmp leaves left.1 right.1 = .gt then (right.1, left.1)
      else (left.1, right.1) with hgame
    refine Built.join game.2 hnode hl hr ?_ ?_ ?_ ?_ ?_ hnlt
    · rw [hgame]
      split
      · exact Or.inr ⟨rfl, rfl⟩
      · exact Or.inl ⟨rfl, rfl⟩
    · rw [hgame]
      split
      case isTrue hgt =>
        refine wins_of_not_lt ?_
        rw [hgt]
        decide
      case isFalse hgt => exact hgt
    · split
      · rw [update_of_ne (by omega), update_self]
      · rw [update_self]
    · intro n h0 hn
      split
      · rw [update_of_ne h0, update_of_ne hn]
      · rw [update_of_ne hn]
    · intro h1
      rw [if_pos h1, update_self]

theorem build_games (hpos : 1 ≤ levels) :
    ∃ w, Games cmp leaves levels (buildSubtree cmp leaves levels 1 0 tree).2 w := by
  obtain ⟨w, h⟩ : ∃ w, Built cmp leaves levels 1 tree (buildSubtree cmp leaves levels 1 0 tree).2 w
      (buildSubtree cmp leaves levels 1 0 tree).1 :=
    buildSubtree_built (le_refl 1) (by omega) (by omega)
  have hone : 1 < 2 ^ levels := Nat.one_lt_two_pow (by omega)
  refine ⟨w, fun i hi => h.leaf i hi (one_above (by omega)),
    fun n hn hlt => h.game n hlt (one_above hn), ?_⟩
  rw [h.won]
  exact h.root rfl hone

end Games

/-! ### The tree as a whole -/

/-- The number of present leaves is kept right, whatever slots are written. -/
structure Counted (t : LoserTree E) : Prop where
  bound : ∀ i, 2 ^ t.height ≤ i → t.leaves i = none
  count : t.active = ((Finset.range (2 ^ t.height)).filter fun i => (t.leaves i).isSome).card

structure Valid (t : LoserTree E) : Prop extends Counted t where
  games : ∃ w, Games cmp t.leaves t.height t.tree w

/-- The winner's slot holds the first of all leaves. -/
structure Standing (t : LoserTree E) : Prop where
  none : t.winnerSlot = none → ∀ i, t.leaves i = none
  some : ∀ slot, t.winnerSlot = some slot →
    ∃ e, t.leaves slot = some e ∧ ∀ i e', t.leaves i = some e' → cmp e e' ≠ .gt

section Valid

variable {cmp} {t : LoserTree E} {slot : ℕ} {e : E}

variable {i : ℕ}

theorem Counted.lt_cap (h : t.Counted) (hi : t.leaves i = some e) : i < 2 ^ t.height := by
  by_contra hge
  rw [h.bound i (by omega)] at hi
  cases hi

theorem Counted.active_eq_zero (h : t.Counted) : t.active = 0 ↔ ∀ i, t.leaves i = none := by
  rw [h.count, Finset.card_eq_zero, Finset.filter_eq_empty_iff]
  constructor
  · intro hnone i
    by_cases hi : i < 2 ^ t.height
    · simpa using hnone (Finset.mem_range.2 hi)
    · exact h.bound i (by omega)
  · intro hnone i _
    simp [hnone i]

theorem Counted.winnerSlot_eq_none (h : t.Counted) :
    t.winnerSlot = none ↔ ∀ i, t.leaves i = none := by
  rw [← h.active_eq_zero, winnerSlot]
  split <;> simp_all

theorem Counted.standing (h : t.Counted) (hzero : t.active = 0) : t.Standing cmp :=
  ⟨fun _ => h.active_eq_zero.1 hzero, fun slot hs => by simp [winnerSlot, hzero] at hs⟩

variable {leaf : Option E} {active : ℕ}

theorem Counted.put (h : t.Counted) (he : t.leaves slot = some e)
    (hactive : active = ((Finset.range (2 ^ t.height)).filter
      fun i => (update t.leaves slot leaf i).isSome).card) :
    (t.put cmp slot leaf active).Counted := by
  refine ⟨fun i hi => ?_, hactive⟩
  have hlt := h.lt_cap he
  have hne : i ≠ slot := by
    rintro rfl
    exact absurd hlt (not_lt.2 hi)
  exact (update_of_ne hne _ _).trans (h.bound i hi)

theorem Counted.remove (h : t.Counted) (he : t.leaves slot = some e) :
    (t.put cmp slot none (t.active - 1)).Counted := by
  refine h.put he ?_
  have hmem : slot ∈ (Finset.range (2 ^ t.height)).filter fun i => (t.leaves i).isSome := by
    simp [h.lt_cap he, he]
  rw [h.count, ← Finset.card_erase_of_mem hmem]
  congr 1
  ext i
  by_cases hi : i = slot
  · simp [hi]
  · simp [hi]

theorem Counted.replace (h : t.Counted) (he : t.leaves slot = some e) (new : E) :
    (t.put cmp slot (some new) t.active).Counted := by
  refine h.put he ?_
  rw [h.count]
  congr 1
  ext i
  by_cases hi : i = slot
  · simp [hi, he]
  · simp [hi]

variable [Std.TransCmp cmp]

variable {leaves : ℕ → Option E}

theorem Wins.trans {a b c : ℕ} (hab : Wins cmp leaves a b) (hbc : Wins cmp leaves b c) :
    Wins cmp leaves a c := by
  unfold Wins cmpIndices at *
  cases ha : leaves a <;> cases hb : leaves b <;> cases hc : leaves c <;> simp_all
  exact Std.TransCmp.le_trans hab hbc

theorem Wins.refl (leaves : ℕ → Option E) (a : ℕ) : Wins cmp leaves a a := by
  unfold Wins cmpIndices
  cases leaves a <;> simp [Std.ReflCmp.compare_self]

theorem Games.root_wins {height : ℕ} {tree w : ℕ → ℕ} (h : Games cmp leaves height tree w)
    (hi : i < 2 ^ height) :
    Wins cmp leaves (w 1) i := by
  -- the claim climbs the path of the leaf
  have hpath : ∀ j ≤ height, Wins cmp leaves (w ((2 ^ height + i) / 2 ^ j)) i := by
    intro j
    induction j with
    | zero =>
      intro _
      rw [pow_zero, Nat.div_one, h.leaf i hi]
      exact Wins.refl leaves i
    | succ j ih =>
      intro hj
      have hprev := ih (by omega)
      obtain ⟨x, hx⟩ : ∃ x, x = (2 ^ height + i) / 2 ^ j := ⟨_, rfl⟩
      rw [← hx] at hprev
      rw [pow_succ, ← Nat.div_div_eq_div_mul, ← hx]
      have hlow : 2 ≤ x := by
        rw [hx, Nat.le_div_iff_mul_le (Nat.two_pow_pos _)]
        calc 2 * 2 ^ j = 2 ^ (j + 1) := by rw [pow_succ, mul_comm]
          _ ≤ 2 ^ height := Nat.pow_le_pow_right (by omega) hj
          _ ≤ 2 ^ height + i := le_add_right _ _
      have hhigh : x ≤ 2 ^ height + i := hx ▸ div_le_self _ _
      obtain ⟨hsides, horder⟩ := h.game (x / 2) (by omega) (by omega)
      have hmem : w (x / 2) = w x ∨ tree (x / 2) = w x := by
        rcases mod_two_eq_zero_or_one x with hmod | hmod
        · rw [show 2 * (x / 2) = x by omega] at hsides
          exact hsides.imp And.left And.right
        · rw [show 2 * (x / 2) + 1 = x by omega] at hsides
          exact hsides.symm.imp And.left And.right
      rcases hmem with hmem | hmem
      · exact hmem ▸ hprev
      · exact (hmem ▸ horder).trans hprev
  have htop := hpath height (le_refl _)
  rwa [Nat.add_div_left _ (Nat.two_pow_pos _), Nat.div_eq_of_lt hi] at htop

theorem Valid.standing (h : t.Valid cmp) : t.Standing cmp := by
  refine ⟨h.winnerSlot_eq_none.1, fun slot hs => ?_⟩
  obtain ⟨w, hw⟩ := h.games
  have hact : t.active ≠ 0 := by
    intro h0
    simp [winnerSlot, h0] at hs
  obtain rfl : t.tree 0 = slot := by simpa [winnerSlot, hact] using hs
  have hwins : ∀ i e', t.leaves i = some e' → Wins cmp t.leaves (t.tree 0) i := by
    intro i e' hi
    rw [hw.root]
    exact hw.root_wins (h.lt_cap hi)
  cases hleaf : t.leaves (t.tree 0) with
  | none =>
    refine absurd (h.active_eq_zero.2 fun i => ?_) hact
    cases hi : t.leaves i with
    | none => rfl
    | some e' =>
      have := hwins i e' hi
      simp [Wins, cmpIndices, hleaf, hi] at this
  | some e =>
    refine ⟨e, rfl, fun i e' hi => ?_⟩
    have := hwins i e' hi
    simpa [Wins, cmpIndices, hleaf, hi] using this

theorem Valid.put (h : t.Valid cmp) (hs : t.winnerSlot = some slot)
    (hcounted : (t.put cmp slot leaf active).Counted) : (t.put cmp slot leaf active).Valid cmp := by
  obtain ⟨e, he, -⟩ := h.standing.some slot hs
  obtain ⟨w, hw⟩ := h.games
  have hlt := h.lt_cap he
  have hroot : t.tree 0 = slot := by
    unfold winnerSlot at hs
    split at hs
    · cases hs
    · exact Option.some.inj hs
  refine ⟨hcounted, ?_⟩
  refine replayLoop_games (hw.pending hlt hroot leaf) (hw.leaf slot hlt) rfl
    (le_add_right _ _) ?_ (le_refl _)
  change 2 ^ t.height + slot < 2 ^ (t.height + 1)
  rw [pow_succ]
  omega

theorem heightFor_spec (n : ℕ) : 1 ≤ heightFor n ∧ n ≤ 2 ^ heightFor n := by
  unfold heightFor
  cases hf : (List.range (n + 2)).find? fun h => decide (1 ≤ h ∧ n ≤ 2 ^ h) with
  | none =>
    have := List.find?_eq_none.1 hf (n + 1) (by simp)
    have hlt : n < 2 ^ (n + 1) := Nat.lt_trans (Nat.lt_succ_self n) Nat.lt_two_pow_self
    simp at this
    omega
  | some h => simpa using List.find?_some hf

omit [Std.TransCmp cmp] in
theorem card_present (initial : List (Option E)) {n : ℕ} (hn : initial.length ≤ n) :
    ((Finset.range n).filter fun i => (initial[i]?.join).isSome).card =
      initial.countP (·.isSome) := by
  rw [Finset.card_filter]
  induction initial generalizing n with
  | nil => simp
  | cons x initial ih =>
    obtain ⟨n, rfl⟩ : ∃ k, n = k + 1 := Nat.exists_eq_add_of_le' (Nat.le_trans (by simp) hn)
    rw [Finset.sum_range_succ', List.countP_cons]
    simp only [List.getElem?_cons_succ, List.getElem?_cons_zero, Option.join_some]
    rw [ih (by simpa using hn)]

theorem build_valid (initial : List (Option E)) : (build cmp initial).Valid cmp := by
  obtain ⟨hpos, hle⟩ := heightFor_spec initial.length
  refine ⟨⟨?_, (card_present initial hle).symm⟩, build_games hpos⟩
  intro i hi
  have : initial[i]? = none := List.getElem?_eq_none (Nat.le_trans hle hi)
  simp [build, this]

end Valid

end LoserTree

end LsmTree
