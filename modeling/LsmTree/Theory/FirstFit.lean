import Mathlib

/-! First-fit packing of items into bins, searched from the last bin to the first; an item
that fits nowhere opens a new bin in front. -/
namespace FirstFit

open List

variable {α : Type*} (fits : List α → α → Bool) (push : List α → α → List α)

/-- Puts `x` in the first bin of the list that it fits in. -/
def pushFirst (x : α) : List (List α) → Option (List (List α))
  | [] => none
  | bin :: bins =>
    if fits bin x then some (push bin x :: bins) else (pushFirst x bins).map (bin :: ·)

def place (bins : List (List α)) (x : α) : List (List α) :=
  match pushFirst fits push x bins.reverse with
  | some bins' => bins'.reverse
  | none => [x] :: bins

variable {fits push} {x : α} {bins bins' : List (List α)}

theorem pushFirst_cases (bins : List (List α)) (x : α) :
    (pushFirst fits push x bins = none ∧ ∀ bin ∈ bins, fits bin x = false) ∨
      ∃ front bin back, bins = front ++ bin :: back ∧ (∀ b ∈ front, fits b x = false) ∧
        fits bin x = true ∧ pushFirst fits push x bins = some (front ++ push bin x :: back) := by
  induction bins with
  | nil => exact Or.inl ⟨rfl, by simp⟩
  | cons bin bins ih =>
    by_cases hfit : fits bin x = true
    · exact Or.inr ⟨[], bin, bins, rfl, by simp, hfit, by simp [pushFirst, hfit]⟩
    · have hno := Bool.eq_false_iff.2 hfit
      rcases ih with ⟨hnone, hall⟩ | ⟨front, bin', back, rfl, hfront, hfit', hsome⟩
      · exact Or.inl ⟨by simp [pushFirst, hno, hnone], forall_mem_cons.2 ⟨hno, hall⟩⟩
      · refine Or.inr ⟨bin :: front, bin', back, rfl, forall_mem_cons.2 ⟨hno, hfront⟩, hfit', ?_⟩
        simp [pushFirst, hno, hsome]

theorem place_cases (bins : List (List α)) (x : α) :
    (place fits push bins x = [x] :: bins ∧ ∀ bin ∈ bins, fits bin x = false) ∨
      ∃ front bin back, bins = front ++ bin :: back ∧ fits bin x = true ∧
        (∀ b ∈ back, fits b x = false) ∧
        place fits push bins x = front ++ push bin x :: back := by
  rcases @pushFirst_cases _ fits push bins.reverse x with
    ⟨hnone, hall⟩ | ⟨front, bin, back, hbins, hfront, hfit, hsome⟩
  · exact Or.inl ⟨by simp [place, hnone], fun bin hbin => hall bin (mem_reverse.2 hbin)⟩
  · refine Or.inr ⟨back.reverse, bin, front.reverse, ?_, hfit, ?_, by simp [place, hsome]⟩
    · have := congrArg List.reverse hbins
      simpa using this
    · exact fun b hb => hfront b (mem_reverse.1 hb)

theorem place_forall {P : List α → Prop} (hsingle : P [x])
    (hpush : ∀ bin, P bin → fits bin x = true → P (push bin x)) (hP : ∀ bin ∈ bins, P bin) :
    ∀ bin ∈ place fits push bins x, P bin := by
  rcases @place_cases _ fits push bins x with ⟨heq, -⟩ | ⟨front, bin, back, rfl, hfit, -, heq⟩
  · rw [heq]
    exact forall_mem_cons.2 ⟨hsingle, hP⟩
  · rw [heq]
    obtain ⟨hfront, hrest⟩ := forall_mem_append.1 hP
    obtain ⟨hbin, hback⟩ := forall_mem_cons.1 hrest
    exact forall_mem_append.2 ⟨hfront, forall_mem_cons.2 ⟨hpush bin hbin hfit, hback⟩⟩

variable {xs : List α}

theorem foldl_place_forall {P : List α → Prop} (hsingle : ∀ x ∈ xs, P [x])
    (hpush : ∀ x ∈ xs, ∀ bin, P bin → fits bin x = true → P (push bin x))
    (hP : ∀ bin ∈ bins, P bin) :
    ∀ bin ∈ xs.foldl (place fits push) bins, P bin := by
  induction xs generalizing bins with
  | nil => exact hP
  | cons x xs ih =>
    refine ih (fun y hy => hsingle y (mem_cons_of_mem _ hy))
      (fun y hy => hpush y (mem_cons_of_mem _ hy)) ?_
    exact place_forall (hsingle x mem_cons_self) (hpush x mem_cons_self) hP

theorem place_single {bin : List α} (h : fits bin x = true) :
    place fits push [bin] x = [push bin x] := by
  simp [place, pushFirst, h]

variable {a b : α}

def Above (bins : List (List α)) (a b : α) : Prop :=
  ∃ front back, bins = front ++ back ∧ a ∈ front.flatten ∧ b ∈ back.flatten

theorem Above.sublist (h : Above bins a b) : [a, b].Sublist bins.flatten := by
  obtain ⟨front, back, rfl, ha, hb⟩ := h
  rw [flatten_append]
  exact (singleton_sublist.2 ha).append (singleton_sublist.2 hb)

theorem above_of_sublist (h : [a, b].Sublist bins.flatten)
    (hbin : ∀ bin ∈ bins, ¬ [a, b].Sublist bin) : Above bins a b := by
  induction bins with
  | nil => cases h
  | cons bin bins ih =>
    obtain ⟨hthis, hrest⟩ := forall_mem_cons.1 hbin
    obtain ⟨l, l', hl, hsub, hsub'⟩ := sublist_append_iff.1 (flatten_cons ▸ h)
    rcases l with _ | ⟨x, _ | ⟨y, l⟩⟩
    · obtain ⟨front, back, rfl, ha, hb⟩ := ih (by simpa [hl] using hsub') hrest
      exact ⟨bin :: front, back, rfl, by simpa using Or.inr (mem_flatten.1 ha), hb⟩
    · simp only [cons_append, nil_append, List.cons.injEq] at hl
      obtain ⟨rfl, rfl⟩ := hl
      exact ⟨[bin], bins, rfl, by simpa using hsub, singleton_sublist.1 hsub'⟩
    · simp only [cons_append, List.cons.injEq] at hl
      obtain ⟨rfl, rfl, hl⟩ := hl
      obtain ⟨rfl, rfl⟩ := append_eq_nil_iff.1 hl.symm
      exact absurd hsub hthis

theorem not_sublist_swap {l : List α} (hnd : l.Nodup) (h : [a, b].Sublist l) :
    ¬ [b, a].Sublist l := by
  induction l with
  | nil => cases h
  | cons x l ih =>
    obtain ⟨hx, hnd⟩ := nodup_cons.1 hnd
    intro h'
    cases h with
    | cons _ h =>
      cases h' with
      | cons _ h' => exact ih hnd h h'
      | cons_cons _ h' => exact hx (h.subset (by simp))
    | cons_cons _ h =>
      cases h' with
      | cons _ h' => exact hx (h'.subset (by simp))
      | cons_cons _ h' => exact hx (h.subset (by simp))

theorem Above.asymm (h : Above bins a b) (hnd : bins.flatten.Nodup) : ¬ Above bins b a :=
  fun h' => not_sublist_swap hnd h.sublist h'.sublist

/-- Every bin in front of one that the item fits in takes it too. -/
def Settles (fits : List α → α → Bool) (bins : List (List α)) (x : α) : Prop :=
  bins.Pairwise fun front back => fits back x = true → fits front x = true

/-- None of the items finds a gap below a bin that does not take it. -/
def AllSettle (fits : List α → α → Bool) (push : List α → α → List α) :
    List (List α) → List α → Prop
  | _, [] => True
  | bins, x :: xs => Settles fits bins x ∧ AllSettle fits push (place fits push bins x) xs

def Earlier (bins : List (List α)) (xs : List α) (b a : α) : Prop :=
  (b ∈ bins.flatten ∧ a ∈ xs) ∨ [b, a].Sublist xs

section Push

variable (hpush : ∀ bin x, (push bin x).Perm (x :: bin))
include hpush

theorem place_perm : (place fits push bins x).flatten.Perm (x :: bins.flatten) := by
  rcases @place_cases _ fits push bins x with ⟨heq, -⟩ | ⟨front, bin, back, rfl, -, -, heq⟩
  · rw [heq]
    exact List.Perm.refl _
  · rw [heq, flatten_append, flatten_append, flatten_cons, flatten_cons]
    exact (((hpush bin x).append_right _).append_left _).trans perm_middle

theorem foldl_place_perm : (xs.foldl (place fits push) bins).flatten.Perm (xs ++ bins.flatten) := by
  induction xs generalizing bins with
  | nil => exact List.Perm.refl _
  | cons x xs ih =>
    exact ih.trans (((place_perm hpush).append_left xs).trans perm_middle)

theorem foldl_place_length {r : α → α → Prop} (hr : ∀ a b, r a b → r b a)
    (hfits : ∀ bin x, (∀ y ∈ bin, r x y) → fits bin x = true)
    (hlen : bins.length ≤ 1)
    (hx : (bins.flatten ++ xs).Pairwise r) :
    (xs.foldl (place fits push) bins).length ≤ 1 := by
  induction xs generalizing bins with
  | nil => exact hlen
  | cons x xs ih =>
    have hperm : ((place fits push bins x).flatten ++ xs).Pairwise r := by
      refine (List.Perm.pairwise_iff (hr _ _) ?_).1 hx
      exact perm_middle.trans ((place_perm hpush).symm.append_right xs)
    refine ih ?_ hperm
    rcases bins with _ | ⟨bin, _ | ⟨_, _⟩⟩
    · exact Nat.le_refl _
    · have hb : ∀ y ∈ bin, r x y := by
        intro y hy
        refine hr _ _ ((pairwise_append.1 hx).2.2 y ?_ x mem_cons_self)
        simpa using hy
      rw [place_single (hfits bin x hb)]
      exact Nat.le_refl _
    · simp at hlen

theorem mem_push {bin : List α} {y : α}
    (hy : y ∈ bin) (x : α) : y ∈ push bin x :=
  (hpush bin x).mem_iff.2 (mem_cons_of_mem x hy)

theorem Above.place (h : Above bins a b) (x : α) :
    Above (place fits push bins x) a b := by
  obtain ⟨front, back, rfl, ha, hb⟩ := h
  have hgrow : ∀ (l r : List (List α)) (bin : List α) (y : α), y ∈ (l ++ bin :: r).flatten →
      y ∈ (l ++ push bin x :: r).flatten := by
    intro l r bin y hy
    simp only [flatten_append, flatten_cons, mem_append] at hy ⊢
    exact hy.imp_right (Or.imp_left fun h => mem_push hpush h x)
  rcases @place_cases _ fits push (front ++ back) x with
    ⟨heq, -⟩ | ⟨front', bin, back', hsplit, -, -, heq⟩
  · rw [heq]
    exact ⟨[x] :: front, back, rfl, mem_cons_of_mem x ha, hb⟩
  · rw [heq]
    rcases append_eq_append_iff.1 hsplit with ⟨mid, rfl, hback⟩ | ⟨mid, rfl, hmid⟩
    · -- the bin that grows is behind the cut
      refine ⟨front, mid ++ push bin x :: back', by simp, ha, hgrow _ _ _ _ ?_⟩
      rwa [← hback]
    · rcases mid with _ | ⟨bin', mid⟩
      · simp only [nil_append] at hmid
        refine ⟨front', push bin x :: back', rfl, by simpa using ha, ?_⟩
        refine hgrow [] back' bin b ?_
        rwa [nil_append, hmid]
      · simp only [cons_append, List.cons.injEq] at hmid
        obtain ⟨rfl, rfl⟩ := hmid
        exact ⟨front' ++ push bin x :: mid, back, by simp, hgrow _ _ _ _ ha, hb⟩

theorem Above.foldl (h : Above bins a b)
    (xs : List α) : Above (xs.foldl (FirstFit.place fits push) bins) a b := by
  induction xs generalizing bins with
  | nil => exact h
  | cons x xs ih => exact ih (h.place hpush x)

variable {conflict : α → α → Prop} (hfits : ∀ bin x, fits bin x = true ↔ ∀ y ∈ bin, ¬ conflict x y)
include hfits

theorem place_above (hs : Settles fits bins x)
    (hb : b ∈ bins.flatten) (hc : conflict x b) : Above (place fits push bins x) x b := by
  obtain ⟨held, hheld, hbh⟩ := mem_flatten.1 hb
  have hno : ¬ fits held x = true := fun hfit => (hfits held x).1 hfit b hbh hc
  rcases @place_cases _ fits push bins x with ⟨heq, -⟩ | ⟨front, bin, back, rfl, hfit, -, heq⟩
  · rw [heq]
    exact ⟨[[x]], bins, rfl, by simp, hb⟩
  · rw [heq]
    refine ⟨front ++ [push bin x], back, by simp, ?_, ?_⟩
    · have hx : x ∈ push bin x := (hpush bin x).mem_iff.2 mem_cons_self
      simp [hx]
    · rcases mem_append.1 hheld with hfront | hrest
      · exact absurd ((pairwise_append.1 hs).2.2 held hfront bin mem_cons_self hfit) hno
      · rcases mem_cons.1 hrest with rfl | hback
        · exact absurd hfit hno
        · exact mem_flatten.2 ⟨held, hback, hbh⟩

theorem place_below (hs : ¬ Settles fits bins x) :
    ∃ b ∈ bins.flatten, conflict x b ∧ Above (place fits push bins x) b x := by
  rcases @place_cases _ fits push bins x with ⟨-, hnone⟩ | ⟨front, bin, back, rfl, hfit, hback, heq⟩
  · refine absurd (pairwise_iff_forall_sublist.2 fun hsub hfit => ?_) hs
    rw [hnone _ (hsub.subset (by simp))] at hfit
    cases hfit
  · have hfront : ¬ ∀ held ∈ front, fits held x = true := by
      intro hall
      refine hs (pairwise_append.2 ⟨?_, ?_, fun held hheld _ _ _ => hall held hheld⟩)
      · exact pairwise_iff_forall_sublist.2 fun hsub _ => hall _ (hsub.subset (by simp))
      · refine pairwise_cons.2 ⟨fun _ _ _ => hfit, ?_⟩
        refine pairwise_iff_forall_sublist.2 fun hsub hfit' => ?_
        rw [hback _ (hsub.subset (by simp))] at hfit'
        cases hfit'
    push Not at hfront
    obtain ⟨held, hheld, hno⟩ := hfront
    rw [Ne, hfits] at hno
    push Not at hno
    obtain ⟨b, hb, hc⟩ := hno
    have hbf : b ∈ front.flatten := mem_flatten.2 ⟨held, hheld, hb⟩
    have hx : x ∈ push bin x := (hpush bin x).mem_iff.2 mem_cons_self
    rw [heq]
    exact ⟨b, by simpa using Or.inl (mem_flatten.1 hbf), hc, front, push bin x :: back, rfl, hbf,
      by simp [hx]⟩

theorem foldl_above (hs : AllSettle fits push bins xs)
    (h : Earlier bins xs b a) (hc : conflict a b) :
    Above (xs.foldl (place fits push) bins) a b := by
  induction xs generalizing bins with
  | nil => rcases h with ⟨-, h⟩ | h <;> cases h
  | cons x xs ih =>
    obtain ⟨hx, hs⟩ := hs
    have hmem : ∀ y, y = x ∨ y ∈ bins.flatten → y ∈ (place fits push bins x).flatten :=
      fun y hy => (place_perm hpush).mem_iff.2 (mem_cons.2 hy)
    have hrest : ∀ y, y = x ∨ y ∈ bins.flatten → a ∈ xs →
        Earlier (place fits push bins x) xs y a := fun y hy ha => Or.inl ⟨hmem y hy, ha⟩
    rcases h with ⟨hb, ha⟩ | h
    · rcases mem_cons.1 ha with rfl | ha
      · exact (place_above hpush hfits hx hb hc).foldl hpush xs
      · exact ih hs (hrest b (Or.inr hb) ha)
    · cases h with
      | cons _ h => exact ih hs (Or.inr h)
      | cons_cons _ h => exact ih hs (hrest b (Or.inl rfl) (singleton_sublist.1 h))

theorem exists_foldl_below (hs : ¬ AllSettle fits push bins xs) :
    ∃ a b, Earlier bins xs b a ∧ conflict a b ∧ Above (xs.foldl (place fits push) bins) b a := by
  induction xs generalizing bins with
  | nil => exact absurd trivial hs
  | cons x xs ih =>
    by_cases hx : Settles fits bins x
    · obtain ⟨a, b, hab, hc, habove⟩ := ih fun hrest => hs ⟨hx, hrest⟩
      refine ⟨a, b, ?_, hc, habove⟩
      rcases hab with ⟨hb, ha⟩ | hsub
      · rcases mem_cons.1 ((place_perm hpush).mem_iff.1 hb) with rfl | hb
        · exact Or.inr ((singleton_sublist.2 ha).cons_cons b)
        · exact Or.inl ⟨hb, mem_cons_of_mem x ha⟩
      · exact Or.inr (hsub.cons x)
    · obtain ⟨b, hb, hc, habove⟩ := place_below hpush hfits hx
      exact ⟨x, b, Or.inl ⟨hb, mem_cons_self⟩, hc, habove.foldl hpush xs⟩

end Push

end FirstFit
