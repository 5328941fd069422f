import Mathlib

/-! Lists that are related item by item, as `mapM` relates what it is given and what it
returns. -/
namespace Pointwise

open List

variable {α β : Type*} {l : List α} {l' : List β}

variable {f : α → Option β}

theorem forall₂_of_mapM (h : l.mapM f = some l') : List.Forall₂ (fun a b => f a = some b) l l' := by
  induction l generalizing l' with
  | nil =>
    cases h
    exact List.Forall₂.nil
  | cons a l ih =>
    rw [mapM_cons] at h
    obtain ⟨b, hb, h⟩ := Option.bind_eq_some_iff.1 h
    obtain ⟨bs, hbs, h⟩ := Option.bind_eq_some_iff.1 h
    cases h
    exact List.Forall₂.cons hb (ih hbs)

theorem mapM_of_forall₂ (h : List.Forall₂ (fun a b => f a = some b) l l') :
    l.mapM f = some l' := by
  induction h with
  | nil => rfl
  | cons hab _ ih =>
    rw [mapM_cons, hab, ih]
    rfl

theorem mapM_congr {g : α → Option β} (h : ∀ a ∈ l, f a = g a) : l.mapM f = l.mapM g := by
  induction l with
  | nil => rfl
  | cons a l ih =>
    obtain ⟨ha, hl⟩ := forall_mem_cons.1 h
    rw [mapM_cons, mapM_cons, ha, ih hl]

theorem mapM_length (h : l.mapM f = some l') : l'.length = l.length :=
  (forall₂_of_mapM h).length_eq.symm

variable {γ : Type*}

theorem mapM_option_map (f : α → Option β) (g : β → γ) (l : List α) :
    l.mapM (fun a => (f a).map g) = (l.mapM f).map (List.map g) := by
  induction l with
  | nil => rfl
  | cons a l ih =>
    rw [mapM_cons, mapM_cons, ih]
    cases f a <;> cases l.mapM f <;> rfl

variable {n : ℕ}

theorem mapM_range_iff {f : ℕ → Option β} : (List.range n).mapM f = some l' ↔
    l'.length = n ∧ ∀ (i : ℕ) (hi : i < l'.length), f i = some l'[i] := by
  constructor
  · intro h
    obtain ⟨hlen, hget⟩ := List.forall₂_iff_get.1 (forall₂_of_mapM h)
    rw [length_range] at hlen
    refine ⟨hlen.symm, fun i hi => ?_⟩
    have hi' : i < (List.range n).length := by
      rw [length_range, hlen]
      exact hi
    have hat := hget i hi' hi
    rwa [get_eq_getElem, getElem_range, get_eq_getElem] at hat
  · rintro ⟨rfl, hget⟩
    apply mapM_of_forall₂
    apply List.forall₂_iff_get.2
    refine ⟨length_range, fun i hi hi' => ?_⟩
    rw [get_eq_getElem, getElem_range, get_eq_getElem]
    exact hget i hi'

variable {R : α → β → Prop}

theorem exists_of_forall₂_mem (h : List.Forall₂ R l l') {b : β} (hb : b ∈ l') :
    ∃ a ∈ l, R a b := by
  induction h with
  | nil => cases hb
  | cons hab _ ih =>
    rcases mem_cons.1 hb with rfl | hb
    · exact ⟨_, mem_cons_self, hab⟩
    · obtain ⟨a, ha, hR⟩ := ih hb
      exact ⟨a, mem_cons_of_mem _ ha, hR⟩

theorem pairwise_of_forall₂ {S : α → α → Prop} {S' : β → β → Prop} (h : List.Forall₂ R l l')
    (hS : l.Pairwise S) (himp : ∀ a b a' b', R a b → R a' b' → S a a' → S' b b') :
    l'.Pairwise S' := by
  induction h with
  | nil => exact List.Pairwise.nil
  | cons hab hrest ih =>
    rw [pairwise_cons] at hS
    refine pairwise_cons.2 ⟨?_, ih hS.2⟩
    intro b' hb'
    obtain ⟨a', ha', hR⟩ := exists_of_forall₂_mem hrest hb'
    exact himp _ _ _ _ hab hR (hS.1 a' ha')

theorem exists_mapM_ok {ε : Type*} {f : α → Except ε β} (h : ∀ a ∈ l, ∃ b, f a = .ok b ∧ R a b) :
    ∃ l', l.mapM f = .ok l' ∧ List.Forall₂ R l l' := by
  induction l with
  | nil => exact ⟨[], rfl, List.Forall₂.nil⟩
  | cons a l ih =>
    obtain ⟨⟨b, hb, hR⟩, hl⟩ := forall_mem_cons.1 h
    obtain ⟨l', hl', hall⟩ := ih hl
    exact ⟨b :: l', by rw [mapM_cons, hb, hl']; rfl, List.Forall₂.cons hR hall⟩

theorem map_eq_of_forall₂ {f : α → γ} {g : β → γ} (h : List.Forall₂ (fun a b => f a = g b) l l') :
    l.map f = l'.map g := by
  rw [← List.forall₂_eq_eq_eq, List.forall₂_map_left_iff, List.forall₂_map_right_iff]
  exact h

theorem map_fst_filter_zipIdx {f : α × ℕ → Bool} {p : α → Bool}
    (h : ∀ (i : ℕ) (hi : i < l.length), f (l[i], n + i) = p l[i]) :
    ((l.zipIdx n).filter f).map Prod.fst = l.filter p := by
  induction l generalizing n with
  | nil => rfl
  | cons a l ih =>
    have hrest := ih (n := n + 1) fun i hi => by
      have := h (i + 1) (Nat.succ_lt_succ hi)
      rwa [getElem_cons_succ, show n + (i + 1) = n + 1 + i by omega] at this
    have ha : f (a, n) = p a := h 0 (Nat.succ_pos _)
    rw [zipIdx_cons, filter_cons, filter_cons, ha, ← hrest]
    split <;> rfl

end Pointwise
