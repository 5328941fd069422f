import Mathlib

/-! Laws under which a merge function can be applied in several passes: operands folded
among themselves first, or onto a base that is itself the result of a merge. -/
namespace MergeLaws

variable {V : Type*} {merge : Option V → List V → V}

/-- A group of operands may be replaced by its own merge. -/
def FoldsOperands (merge : Option V → List V → V) : Prop :=
  ∀ b xs ys zs, merge b (xs ++ [merge none ys] ++ zs) = merge b (xs ++ ys ++ zs)

/-- A merged value may serve as the base of a later merge. -/
def FoldsBase (merge : Option V → List V → V) : Prop :=
  ∀ b xs ys, merge (some (merge b xs)) ys = merge b (xs ++ ys)

/-- Two operand lists that no older operands and no base tell apart. -/
def Interchangeable (merge : Option V → List V → V) (xs ys : List V) : Prop :=
  ∀ b older, merge b (older ++ xs) = merge b (older ++ ys)

theorem Interchangeable.cons {xs ys : List V} (h : Interchangeable merge xs ys) (v : V) :
    Interchangeable merge (v :: xs) (v :: ys) := by
  intro b older
  simpa using h b (older ++ [v])

theorem Interchangeable.merge_eq {xs ys : List V} (h : Interchangeable merge xs ys)
    (b : Option V) : merge b xs = merge b ys := by
  simpa using h b []

theorem FoldsOperands.interchangeable (h : FoldsOperands merge) (xs zs : List V) :
    Interchangeable merge (merge none xs :: zs) (xs ++ zs) := by
  intro b older
  simpa using h b older xs zs

end MergeLaws
