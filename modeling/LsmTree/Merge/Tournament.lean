import LsmTree.Merge.LoserTree
import LsmTree.Theory.Transition

/-! Whole runs of a loser tree. -/
namespace LsmTree.LoserTree

open Transition Option

inductive Operation (E : Type*) where
  | replaceMin (new : E)
  | popMin
  | takeSlot (slot : ℕ)
  | replay (leaf : ℕ)

variable {E : Type*} (cmp : E → E → Ordering)

/-- `none` where the operation panics. -/
def step (t : LoserTree E) : Operation E → Option (LoserTree E)
  | .replaceMin new => (t.replaceMin cmp new).map (·.2)
  | .popMin => (t.popMin cmp).map (·.2)
  | .takeSlot slot => some (t.takeSlot cmp slot).2
  | .replay leaf => if leaf < 2 ^ t.height then some (t.replay cmp leaf) else none

/-- The winner is the first of the present leaves, and of equal ones that in the lowest slot. -/
structure Decided (t : LoserTree E) : Prop where
  none : t.winnerSlot = none ↔ ∀ i, t.leaves i = none
  some : ∀ slot, t.winnerSlot = some slot → ∃ e, t.leaves slot = some e ∧
    ∀ i e', t.leaves i = some e' → cmp e e' = .lt ∨ cmp e e' = .eq ∧ slot ≤ i

def IsLeast (t : LoserTree E) (slot : ℕ) (e : E) : Prop :=
  t.leaves slot = some e ∧ ∀ i e', t.leaves i = some e' → cmp e e' ≠ .gt

/-- The operation plays again the games of the winner only, and leaves one least leaf behind. -/
structure Fair (t : LoserTree E) (op : Operation E) : Prop where
  winner : ∀ slot, op = .takeSlot slot ∧ (t.leaves slot).isSome = true ∨ op = .replay slot →
    t.winnerSlot = some slot
  unique : ∀ t', t.step cmp op = some t' → ∀ i e j e', t'.IsLeast cmp i e → t'.IsLeast cmp j e' →
    i = j

section Build

/-- The leaf of `a` comes before that of `b`, or is equal to it and in a lower slot. -/
def Precedes (leaves : ℕ → Option E) (a b : ℕ) : Prop :=
  cmpIndices cmp leaves a b = .lt ∨ cmpIndices cmp leaves a b = .eq ∧ a ≤ b

variable {cmp} [Std.TransCmp cmp] {leaves : ℕ → Option E} {a b c : ℕ}

theorem Precedes.trans (hab : Precedes cmp leaves a b) (hbc : Precedes cmp leaves b c) :
    Precedes cmp leaves a c := by
  unfold Precedes cmpIndices at *
  cases ha : leaves a <;> cases hb : leaves b <;> cases hc : leaves c <;> simp_all
  case some.some.some x y z =>
    rcases hab with hab | ⟨hab, hle⟩ <;> rcases hbc with hbc | ⟨hbc, hle'⟩
    · exact Or.inl (Std.TransCmp.lt_trans hab hbc)
    · exact Or.inl (Std.TransCmp.lt_of_lt_of_eq hab hbc)
    · exact Or.inl (Std.TransCmp.lt_of_eq_of_lt hab hbc)
    · exact Or.inr ⟨Std.TransCmp.eq_trans hab hbc, hle.trans hle'⟩
  all_goals omega

theorem Precedes.refl (leaves : ℕ → Option E) (a : ℕ) : Precedes cmp leaves a a := by
  refine Or.inr ⟨?_, Nat.le_refl a⟩
  unfold cmpIndices
  cases leaves a <;> simp [Std.ReflCmp.compare_self]

theorem buildSubtree_first (h node lo : ℕ) (tree : ℕ → ℕ) :
    (lo ≤ (buildSubtree cmp leaves h node lo tree).1 ∧
      (buildSubtree cmp leaves h node lo tree).1 < lo + 2 ^ h) ∧
    ∀ i, lo ≤ i → i < lo + 2 ^ h →
      Precedes cmp leaves (buildSubtree cmp leaves h node lo tree).1 i := by
  induction h generalizing node lo tree with
  | zero =>
    refine ⟨⟨Nat.le_refl _, by simp [buildSubtree]⟩, fun i hlo hhi => ?_⟩
    obtain rfl : i = lo := by
      simp only [pow_zero] at hhi
      omega
    exact Precedes.refl leaves i
  | succ h ih =>
    obtain ⟨⟨hl, hl'⟩, hleft⟩ := ih (2 * node) lo tree
    obtain ⟨⟨hr, hr'⟩, hright⟩ := ih (2 * node + 1) (lo + 2 ^ h)
      (buildSubtree cmp leaves h (2 * node) lo tree).2
    simp only [buildSubtree]
    set l := (buildSubtree cmp leaves h (2 * node) lo tree).1
    set r := (buildSubtree cmp leaves h (2 * node + 1) (lo + 2 ^ h)
      (buildSubtree cmp leaves h (2 * node) lo tree).2).1
    rw [pow_succ]
    by_cases hgame : cmpIndices cmp leaves l r = .gt
    · have hrl : Precedes cmp leaves r l := by
        refine Or.inl ?_
        rw [← cmpIndices_swap, hgame]
        rfl
      simp only [hgame, if_true]
      refine ⟨by omega, fun i hlo hhi => ?_⟩
      by_cases hi : i < lo + 2 ^ h
      · exact hrl.trans (hleft i hlo hi)
      · exact hright i (by omega) (by omega)
    · have hlr : Precedes cmp leaves l r := by
        cases hc : cmpIndices cmp leaves l r with
        | lt => exact Or.inl hc
        | eq => exact Or.inr ⟨hc, by omega⟩
        | gt => exact absurd hc hgame
      simp only [hgame, if_false]
      refine ⟨by omega, fun i hlo hhi => ?_⟩
      by_cases hi : i < lo + 2 ^ h
      · exact hleft i hlo hi
      · exact hlr.trans (hright i (by omega) (by omega))

omit [Std.TransCmp cmp] in
theorem build_root (initial : List (Option E)) :
    (build cmp initial).tree 0 =
      (buildSubtree cmp (build cmp initial).leaves (build cmp initial).height 1 0 fun _ => 0).1 := by
  obtain ⟨hpos, -⟩ := heightFor_spec initial.length
  obtain ⟨h, hh⟩ : ∃ h, heightFor initial.length = h + 1 := ⟨_, (Nat.sub_add_cancel hpos).symm⟩
  simp [build, hh, buildSubtree]

theorem build_decided (initial : List (Option E)) : (build cmp initial).Decided cmp := by
  have hvalid : (build cmp initial).Valid cmp := build_valid initial
  refine ⟨hvalid.winnerSlot_eq_none, fun slot hs => ?_⟩
  obtain ⟨e, he, -⟩ := hvalid.standing.some slot hs
  refine ⟨e, he, fun i e' hi => ?_⟩
  obtain rfl : (build cmp initial).tree 0 = slot := by
    unfold winnerSlot at hs
    split at hs
    · cases hs
    · exact Option.some.inj hs
  have hfirst : Precedes cmp (build cmp initial).leaves ((build cmp initial).tree 0) i := by
    rw [build_root]
    exact (buildSubtree_first _ 1 0 _).2 i (Nat.zero_le i) (by simpa using hvalid.lt_cap hi)
  simpa [Precedes, cmpIndices, he, hi] using hfirst

end Build

section Runs

variable {cmp} [Std.TransCmp cmp] {t t' : LoserTree E}

theorem Valid.decided (h : t.Valid cmp)
    (hunique : ∀ i e j e', t.IsLeast cmp i e → t.IsLeast cmp j e' → i = j) : t.Decided cmp := by
  refine ⟨h.winnerSlot_eq_none, fun slot hs => ?_⟩
  obtain ⟨e, he, hle⟩ := h.standing.some slot hs
  refine ⟨e, he, fun i e' hi => ?_⟩
  cases hc : cmp e e' with
  | lt => exact Or.inl rfl
  | gt => exact absurd hc (hle i e' hi)
  | eq =>
    -- a leaf equal to the winner is a least one too
    have hleast : t.IsLeast cmp i e' := by
      refine ⟨hi, fun j x hj => ?_⟩
      intro hgt
      have hxe : cmp x e = .lt := Std.TransCmp.lt_of_lt_of_eq (Std.OrientedCmp.gt_iff_lt.1 hgt)
        (Std.OrientedCmp.eq_comm.1 hc)
      exact hle j x hj (Std.OrientedCmp.gt_iff_lt.2 hxe)
    exact Or.inr ⟨rfl, (hunique slot e i e' ⟨he, hle⟩ hleast).le⟩

theorem Valid.remove (h : t.Valid cmp) {slot : ℕ} {e : E} (hs : t.winnerSlot = some slot)
    (he : t.leaves slot = some e) : (t.put cmp slot none (t.active - 1)).Valid cmp :=
  h.put hs (h.toCounted.remove he)

theorem step_valid {op : Operation E} (h : t.Valid cmp) (hfair : t.Fair cmp op)
    (hstep : t.step cmp op = some t') : t'.Valid cmp := by
  cases op with
  | replaceMin new =>
    obtain ⟨r, hr, rfl⟩ := map_eq_some_iff.1 hstep
    obtain ⟨slot, hs, hold⟩ := bind_eq_some_iff.1 hr
    obtain ⟨old, he, rfl⟩ := map_eq_some_iff.1 hold
    exact h.put hs (h.toCounted.replace he new)
  | popMin =>
    obtain ⟨r, hr, rfl⟩ := map_eq_some_iff.1 hstep
    cases hs : t.winnerSlot with
    | none =>
      simp only [popMin, hs] at hr
      cases hr
      exact h
    | some slot =>
      simp only [popMin, hs] at hr
      obtain ⟨old, he, rfl⟩ := map_eq_some_iff.1 hr
      exact h.remove hs he
  | takeSlot slot =>
    cases hstep
    cases he : t.leaves slot with
    | none => simpa only [takeSlot, he] using h
    | some e =>
      have hs := hfair.winner slot (Or.inl ⟨rfl, by simp [he]⟩)
      simpa only [takeSlot, he] using h.remove hs he
  | replay leaf =>
    simp only [step] at hstep
    split at hstep <;> cases hstep
    have hs := hfair.winner leaf (Or.inr rfl)
    have hsame : t.replay cmp leaf = t.put cmp leaf (t.leaves leaf) t.active := by
      rw [LoserTree.put, Function.update_eq_self]
    rw [hsame]
    refine h.put hs ?_
    rw [← hsame]
    exact ⟨h.bound, h.count⟩

/-- In every run of fair operations on a tree over any leaves, the winner is the first of the present
leaves, with ties to the lower slot, and there is none when no leaf is present. -/
theorem run_decided (initial : List (Option E)) {ops : List (Operation E)}
    (h : Run (step cmp) (Fair cmp) (build cmp initial) ops t) : t.Decided cmp := by
  have hinv : t.Valid cmp ∧ t.Decided cmp := by
    refine @Run.invariant _ _ _ _ (fun t => t.Valid cmp ∧ t.Decided cmp) ?_ _ _ _ h
      ⟨build_valid initial, build_decided initial⟩
    rintro t op t' ⟨hvalid, -⟩ hfair hstep
    have hvalid' := step_valid hvalid hfair hstep
    exact ⟨hvalid', hvalid'.decided (hfair.unique t' hstep)⟩
  exact hinv.2

end Runs

/-- The first of two leaves is taken out, and the other is the winner. -/
theorem popTwo_decided : ∃ t, exec (step compare) (build compare [some 5, some 3]) [.popMin] = some t ∧
    t.winnerSlot = some 0 ∧ t.Decided compare := by
  have hfair : Fair compare (build compare [some 5, some 3]) .popMin := by
    refine ⟨?_, ?_⟩
    · rintro slot (⟨h, -⟩ | h) <;> cases h
    · intro t' ht' i e j e' hi hj
      cases ht'
      -- one slot is left
      have hzero : ∀ i x, (LoserTree.put compare (build compare [some 5, some 3]) 1 none 1).leaves i =
          some x → i = 0 := by
        rintro (_ | _ | i) x hx
        · rfl
        · cases hx
        · cases hx
      rw [hzero i e hi.1, hzero j e' hj.1]
  have hguard : Guarded (step compare) (Fair compare) (build compare [some 5, some 3]) [.popMin] :=
    ⟨hfair, fun _ _ => trivial⟩
  exact ⟨_, rfl, rfl, run_decided [some 5, some 3] (run_of_guarded hguard rfl)⟩

/-- Taking a leaf that is not the winner makes its empty slot the winner, and a replay that ties
keeps the higher slot. -/
theorem takeSlot_loses_winner :
    (∃ t, exec (step compare) (build compare [some 1, some 2]) [.takeSlot 1] = some t ∧
      t.winnerSlot = some 1 ∧ t.leaves 1 = none ∧ t.leaves 0 = some 1 ∧ ¬ t.Decided compare) ∧
    ∃ t, exec (step compare) (build compare [some 1, some 0]) [.replaceMin 1] = some t ∧
      t.winnerSlot = some 1 ∧ t.leaves 1 = some 1 ∧ t.leaves 0 = some 1 ∧ ¬ t.Decided compare := by
  refine ⟨⟨_, rfl, rfl, rfl, rfl, fun h => ?_⟩, _, rfl, rfl, rfl, rfl, fun h => ?_⟩
  · obtain ⟨e, he, -⟩ := h.some 1 rfl
    cases he
  · obtain ⟨e, he, hfirst⟩ := h.some 1 rfl
    cases he
    have := hfirst 0 1 rfl
    simp at this

end LsmTree.LoserTree
