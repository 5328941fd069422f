import Mathlib

/-! Items reserved by holders: the reserved set is the union of what is held, and no item is held
twice. -/
namespace Reservation

open Function

variable {W α : Type*} [DecidableEq W] [DecidableEq α]

structure Exact (held : W → Finset α) (reserved : Finset α) : Prop where
  mem_iff : ∀ a, a ∈ reserved ↔ ∃ w, a ∈ held w
  disjoint : ∀ w w', w ≠ w' → Disjoint (held w) (held w')

variable {held : W → Finset α} {reserved items : Finset α} {w : W}

omit [DecidableEq W] [DecidableEq α] in
theorem exact_empty : Exact (fun _ : W => (∅ : Finset α)) ∅ :=
  ⟨by simp, by simp⟩

omit [DecidableEq W] [DecidableEq α] in
theorem Exact.subset (h : Exact held reserved) (w : W) : held w ⊆ reserved :=
  fun a ha => (h.mem_iff a).2 ⟨w, ha⟩

theorem Exact.acquire (h : Exact held reserved) (hw : held w = ∅) (hi : Disjoint reserved items) :
    Exact (update held w items) (reserved ∪ items) := by
  constructor
  · intro a
    rw [Finset.mem_union, h.mem_iff]
    constructor
    · rintro (⟨v, hv⟩ | ha)
      · have hne : v ≠ w := by
          rintro rfl
          simp [hw] at hv
        exact ⟨v, by rwa [update_of_ne hne]⟩
      · exact ⟨w, by rwa [update_self]⟩
    · rintro ⟨v, hv⟩
      by_cases hvw : v = w
      · subst hvw
        rw [update_self] at hv
        exact Or.inr hv
      · rw [update_of_ne hvw] at hv
        exact Or.inl ⟨v, hv⟩
  · intro u v huv
    by_cases hu : u = w
    · subst hu
      rw [update_self, update_of_ne (Ne.symm huv)]
      exact (hi.mono_left (h.subset v)).symm
    · by_cases hv : v = w
      · subst hv
        rw [update_self, update_of_ne huv]
        exact hi.mono_left (h.subset u)
      · rw [update_of_ne hu, update_of_ne hv]
        exact h.disjoint u v huv

theorem Exact.release (h : Exact held reserved) (w : W) :
    Exact (update held w ∅) (reserved \ held w) := by
  constructor
  · intro a
    rw [Finset.mem_sdiff, h.mem_iff]
    constructor
    · rintro ⟨⟨v, hv⟩, hnot⟩
      have hne : v ≠ w := by
        rintro rfl
        exact hnot hv
      exact ⟨v, by rwa [update_of_ne hne]⟩
    · rintro ⟨v, hv⟩
      by_cases hvw : v = w
      · subst hvw
        simp at hv
      · rw [update_of_ne hvw] at hv
        exact ⟨⟨v, hv⟩, fun ha => Finset.disjoint_left.1 (h.disjoint v w hvw) hv ha⟩
  · intro u v huv
    by_cases hu : u = w
    · subst hu
      simp
    · by_cases hv : v = w
      · subst hv
        simp
      · rw [update_of_ne hu, update_of_ne hv]
        exact h.disjoint u v huv

end Reservation
