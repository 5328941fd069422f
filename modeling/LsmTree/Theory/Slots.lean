import Mathlib

/-! Loops over a list that each time touch one slot of a store: a slot ends as its own items make
it, in their order. -/
namespace Slots

variable {S A B I : Type*} [DecidableEq I]

theorem foldl_slot {f : S → A → S} (slot : S → I → B) {key : A → I} (h : B → A → B)
    (hf : ∀ s a i, slot (f s a) i = if key a = i then h (slot s i) a else slot s i)
    (as : List A) (s : S) (i : I) :
    slot (as.foldl f s) i = (as.filter fun a => decide (key a = i)).foldl h (slot s i) := by
  induction as generalizing s with
  | nil => rfl
  | cons a as ih =>
    rw [List.foldl_cons, ih, hf]
    by_cases hk : key a = i
    · rw [if_pos hk, List.filter_cons_of_pos (by simpa using hk), List.foldl_cons]
    · rw [if_neg hk, List.filter_cons_of_neg (by simpa using hk)]

theorem filter_key_eq {key : A → I} {as : List A} {a : A} (hnodup : (as.map key).Nodup)
    (ha : a ∈ as) : (as.filter fun b => decide (key b = key a)) = [a] := by
  induction as with
  | nil => cases ha
  | cons b as ih =>
    obtain ⟨hb, hrest⟩ := List.nodup_cons.1 hnodup
    rcases List.mem_cons.1 ha with rfl | ha
    · rw [List.filter_cons_of_pos (by simp), List.filter_eq_nil_iff.2]
      intro c hc hk
      exact hb (List.mem_map.2 ⟨c, hc, of_decide_eq_true hk⟩)
    · rw [List.filter_cons_of_neg, ih hrest ha]
      intro hk
      exact hb (List.mem_map.2 ⟨a, ha, (of_decide_eq_true hk).symm⟩)

theorem filter_key_eq_nil {key : A → I} {as : List A} {i : I} (h : ∀ a ∈ as, key a ≠ i) :
    (as.filter fun b => decide (key b = i)) = [] :=
  List.filter_eq_nil_iff.2 fun a ha hk => h a ha (of_decide_eq_true hk)

end Slots
