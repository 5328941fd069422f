import Mathlib

/-! Runs of a partial step function whose actions each satisfy a side condition, and the rule
that carries an invariant along them. -/
namespace Transition

variable {S A : Type*} (step : S → A → Option S) (ok : S → A → Prop)

inductive Run : S → List A → S → Prop where
  | nil (s : S) : Run s [] s
  | cons {s s' s'' : S} {a : A} {as : List A} :
      step s a = some s' → ok s a → Run s' as s'' → Run s (a :: as) s''

variable {step ok}

theorem Run.invariant {Inv : S → Prop}
    (hstep : ∀ s a s', Inv s → ok s a → step s a = some s' → Inv s')
    {s s' : S} {as : List A} (h : Run step ok s as s') (hs : Inv s) : Inv s' := by
  induction h with
  | nil s => exact hs
  | cons hstep' hok _ ih => exact ih (hstep _ _ _ hs hok hstep')

variable (step)

/-- The state after the actions, if every one of them can be taken. -/
def exec : S → List A → Option S
  | s, [] => some s
  | s, a :: as => (step s a).bind fun s' => exec s' as

variable {step}

theorem run_of_exec {s s' : S} {as : List A} (h : exec step s as = some s') :
    Run step (fun _ _ => True) s as s' := by
  induction as generalizing s with
  | nil =>
    cases h
    exact Run.nil _
  | cons a as ih =>
    obtain ⟨mid, hmid, hrest⟩ := Option.bind_eq_some_iff.1 h
    exact Run.cons hmid trivial (ih hrest)

/-- Every action meets the condition in the state that it is taken in. -/
def Guarded (step : S → A → Option S) (ok : S → A → Prop) : S → List A → Prop
  | _, [] => True
  | s, a :: as => ok s a ∧ ∀ s', step s a = some s' → Guarded step ok s' as

instance decidableGuarded [∀ s a, Decidable (ok s a)] :
    ∀ s as, Decidable (Guarded step ok s as)
  | _, [] => isTrue trivial
  | s, a :: as =>
    match hs : step s a with
    | none => decidable_of_iff (ok s a)
        ⟨fun h => ⟨h, fun s' hs' => by rw [hs] at hs'; cases hs'⟩, And.left⟩
    | some mid =>
      have := decidableGuarded mid as
      decidable_of_iff (ok s a ∧ Guarded step ok mid as)
        ⟨fun h => ⟨h.1, fun s' hs' => by rw [hs] at hs'; cases hs'; exact h.2⟩,
          fun h => ⟨h.1, h.2 mid hs⟩⟩

theorem run_of_guarded {s s' : S} {as : List A} (hg : Guarded step ok s as)
    (h : exec step s as = some s') : Run step ok s as s' := by
  induction as generalizing s with
  | nil =>
    cases h
    exact Run.nil _
  | cons a as ih =>
    obtain ⟨mid, hmid, hrest⟩ := Option.bind_eq_some_iff.1 h
    exact Run.cons hmid hg.1 (ih (hg.2 mid hmid) hrest)

theorem exec_of_guarded {Inv : S → Prop}
    (hstep : ∀ s a, Inv s → ok s a → ∃ s', step s a = some s' ∧ Inv s') {s : S} {as : List A}
    (h : Guarded step ok s as) (hs : Inv s) : ∃ s', exec step s as = some s' ∧ Inv s' := by
  induction as generalizing s with
  | nil => exact ⟨s, rfl, hs⟩
  | cons a as ih =>
    obtain ⟨hok, hrest⟩ := h
    obtain ⟨mid, hmid, hinv⟩ := hstep s a hs hok
    obtain ⟨s', hexec, hinv'⟩ := ih (hrest mid hmid) hinv
    exact ⟨s', by rw [exec, hmid]; exact hexec, hinv'⟩

end Transition
