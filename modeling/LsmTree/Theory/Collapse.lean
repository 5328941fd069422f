import Mathlib

/-! Copies in sorted lists: gathering equal neighbours, and reading a list up to its first final
element. -/
namespace Collapse

open List

variable {α β : Type*}

section Chunks

variable [DecidableEq β] (f : α → β)

/-- Neighbours of one label, with the label. -/
def chunkBy : List α → List (β × List α)
  | [] => []
  | a :: l =>
    match chunkBy l with
    | [] => [(f a, [a])]
    | (b, as) :: rest => if f a = b then (b, a :: as) :: rest else (f a, [a]) :: (b, as) :: rest

variable {f} {l : List α}

theorem flatMap_chunkBy : (chunkBy f l).flatMap (·.2) = l := by
  induction l with
  | nil => rfl
  | cons a l ih =>
    rw [chunkBy]
    split
    case h_1 h =>
      rw [h] at ih
      rw [← ih]
      rfl
    case h_2 b as rest h =>
      rw [h] at ih
      split <;> simp [← ih]

theorem mem_chunkBy {c : β × List α} (h : c ∈ chunkBy f l) : c.2 ≠ [] ∧ ∀ a ∈ c.2, f a = c.1 := by
  induction l generalizing c with
  | nil => cases h
  | cons a l ih =>
    rw [chunkBy] at h
    split at h
    case h_1 =>
      rw [mem_singleton] at h
      subst h
      simp
    case h_2 b as rest heq =>
      rw [heq] at ih
      have hhead := ih mem_cons_self
      split at h
      case isTrue hab =>
        rcases mem_cons.1 h with rfl | h
        · exact ⟨cons_ne_nil _ _, forall_mem_cons.2 ⟨hab, hhead.2⟩⟩
        · exact ih (mem_cons_of_mem _ h)
      case isFalse hab =>
        rcases mem_cons.1 h with rfl | h
        · simp
        · exact ih h

theorem exists_chunkBy {a : α} (h : a ∈ l) : ∃ c ∈ chunkBy f l, a ∈ c.2 ∧ c.1 = f a := by
  rw [← flatMap_chunkBy (f := f) (l := l)] at h
  obtain ⟨c, hc, ha⟩ := mem_flatMap.1 h
  exact ⟨c, hc, ha, ((mem_chunkBy hc).2 a ha).symm⟩

theorem mem_of_mem_chunkBy {c : β × List α} (h : c ∈ chunkBy f l) {a : α} (ha : a ∈ c.2) :
    a ∈ l := by
  rw [← flatMap_chunkBy (f := f) (l := l)]
  exact mem_flatMap.2 ⟨c, h, ha⟩

theorem chunkBy_strict {γ : Type*} [PartialOrder γ] {g : β → γ} (hg : Function.Injective g)
    (h : l.Pairwise fun a b => g (f a) ≤ g (f b)) :
    (chunkBy f l).Pairwise fun c d => g c.1 < g d.1 := by
  induction l with
  | nil => exact List.Pairwise.nil
  | cons a l ih =>
    obtain ⟨ha, hl⟩ := pairwise_cons.1 h
    have hlow : ∀ c ∈ chunkBy f l, g (f a) ≤ g c.1 := by
      intro c hc
      obtain ⟨b, hb⟩ := exists_mem_of_ne_nil _ (mem_chunkBy hc).1
      rw [← (mem_chunkBy hc).2 b hb]
      exact ha b (mem_of_mem_chunkBy hc hb)
    have ih := ih hl
    rw [chunkBy]
    split
    case h_1 => exact pairwise_singleton _ _
    case h_2 b as rest heq =>
      rw [heq] at ih hlow
      have hb := pairwise_cons.1 ih
      split
      case isTrue => exact pairwise_cons.2 ⟨hb.1, hb.2⟩
      case isFalse hab =>
        have hlt : g (f a) < g b :=
          lt_of_le_of_ne (hlow _ mem_cons_self) fun he => hab (hg he)
        refine pairwise_cons.2 ⟨forall_mem_cons.2 ⟨hlt, ?_⟩, ih⟩
        exact fun c hc => hlt.trans (hb.1 c hc)

theorem chunkBy_unique {γ : Type*} [PartialOrder γ] {g : β → γ} (hg : Function.Injective g)
    (h : l.Pairwise fun a b => g (f a) ≤ g (f b)) {c d : β × List α} (hc : c ∈ chunkBy f l)
    (hd : d ∈ chunkBy f l) (he : c.1 = d.1) : c = d := by
  by_contra hne
  have hdiff : (chunkBy f l).Pairwise fun c d => c.1 ≠ d.1 :=
    (chunkBy_strict hg h).imp fun hlt he => hlt.ne (congrArg g he)
  have : Std.Symm fun c d : β × List α => c.1 ≠ d.1 := ⟨fun _ _ h => h.symm⟩
  exact hdiff.forall hc hd hne he

end Chunks

section UpTo

variable (final : α → Bool)

/-- The elements up to the first final one and with it. -/
def upTo : List α → List α
  | [] => []
  | a :: l => if final a then [a] else a :: upTo l

theorem upTo_map (f : α → β) (final : β → Bool) (l : List α) :
    upTo final (l.map f) = (upTo (fun a => final (f a)) l).map f := by
  induction l with
  | nil => rfl
  | cons a l ih =>
    rw [map_cons, upTo, upTo]
    split
    · rfl
    · rw [ih, map_cons]

variable [PartialOrder β] (slot : α → β)

/-- `l'` holds every element of `l` that is not final, once, and for each final one a final
one that is not behind it. -/
structure Thins (l' l : List α) : Prop where
  subset : l' ⊆ l
  once : (l'.filter fun a => !final a).Nodup
  kept : ∀ a ∈ l, final a = false → a ∈ l'
  covered : ∀ a ∈ l, final a = true → ∃ b ∈ l', final b = true ∧ slot b ≤ slot a

variable {final slot} {l l' : List α}

theorem Thins.head {a : α} (h : Thins final slot l' (a :: l))
    (hl : (a :: l).Pairwise fun a b => slot a < slot b)
    (hl' : l'.Pairwise fun a b => slot a ≤ slot b) : ∃ rest, l' = a :: rest := by
  have hfirst := (pairwise_cons.1 hl).1
  have hlow : ∀ b ∈ l', slot b ≤ slot a → b = a := by
    intro b hb hle
    rcases mem_cons.1 (h.subset hb) with heq | hbl
    · exact heq
    · exact absurd (hfirst b hbl) (not_lt_of_ge hle)
  obtain ⟨b, hb, hle⟩ : ∃ b ∈ l', slot b ≤ slot a := by
    by_cases ha : final a = true
    · obtain ⟨b, hb, -, hle⟩ := h.covered a mem_cons_self ha
      exact ⟨b, hb, hle⟩
    · exact ⟨a, h.kept a mem_cons_self (by simpa using ha), le_rfl⟩
  cases l' with
  | nil => cases hb
  | cons c rest =>
    refine ⟨rest, ?_⟩
    rw [hlow c mem_cons_self]
    rcases mem_cons.1 hb with rfl | hb
    · exact hle
    · exact ((pairwise_cons.1 hl').1 b hb).trans hle

theorem Thins.tail {a : α} (h : Thins final slot (a :: l') (a :: l)) (ha : final a = false)
    (hl : (a :: l).Pairwise fun a b => slot a < slot b) : Thins final slot l' l := by
  have hfirst := (pairwise_cons.1 hl).1
  have hnot : a ∉ l := fun hin => lt_irrefl _ (hfirst a hin)
  have honce := h.once
  rw [filter_cons_of_pos (by simp [ha]), nodup_cons] at honce
  refine ⟨fun b hb => ?_, honce.2, fun b hb hf => ?_, fun b hb hf => ?_⟩
  · rcases mem_cons.1 (h.subset (mem_cons_of_mem _ hb)) with rfl | hbl
    · exact absurd (mem_filter.2 ⟨hb, by simp [ha]⟩) honce.1
    · exact hbl
  · rcases mem_cons.1 (h.kept b (mem_cons_of_mem _ hb) hf) with rfl | hbl
    · exact absurd hb hnot
    · exact hbl
  · obtain ⟨c, hc, hfc, hle⟩ := h.covered b (mem_cons_of_mem _ hb) hf
    rcases mem_cons.1 hc with rfl | hc
    · rw [ha] at hfc
      cases hfc
    · exact ⟨c, hc, hfc, hle⟩

theorem Thins.upTo_eq (h : Thins final slot l' l) (hl : l.Pairwise fun a b => slot a < slot b)
    (hl' : l'.Pairwise fun a b => slot a ≤ slot b) : upTo final l' = upTo final l := by
  induction l generalizing l' with
  | nil => rw [subset_nil.1 h.subset]
  | cons a l ih =>
    obtain ⟨rest, rfl⟩ := h.head hl hl'
    by_cases ha : final a = true
    · rw [upTo, upTo, if_pos ha, if_pos ha]
    · have ha' : final a = false := by simpa using ha
      rw [upTo, upTo, if_neg ha, if_neg ha,
        ih (h.tail ha' hl) (pairwise_cons.1 hl).2 (pairwise_cons.1 hl').2]

end UpTo

end Collapse
