import LsmTree.Entry
import LsmTree.Theory.MergeLaws

/-! What a read means: the entries of one key, newest first, give at most one value. -/
namespace LsmTree

variable {K V : Type*}

/-- The operands gathered so far, oldest first, applied to the base under them. -/
def settle (op : Option (MergeOperator K V)) (k : K) (base : Option V) : List V → Option V
  | [] => base
  | v :: vs =>
    match op with
    | some m => some (m.merge k base (v :: vs))
    | none => base

@[simp] theorem settle_nil (op : Option (MergeOperator K V)) (k : K) (base : Option V) :
    settle op k base [] = base := rfl

theorem settle_some (m : MergeOperator K V) (k : K) (base : Option V) {acc : List V}
    (h : acc ≠ []) : settle (some m) k base acc = some (m.merge k base acc) := by
  cases acc with
  | nil => exact absurd rfl h
  | cons v vs => rfl

/-- A reader: its snapshot, range tombstones, value log and merge operator. -/
structure ReadView (K V : Type*) where
  seqno : ℕ
  rangeTombstones : List (RangeTombstone K)
  deref : V → V
  mergeOperator : Option (MergeOperator K V)

namespace ReadView

variable [LinearOrder K]

def hides (r : ReadView K V) (e : InternalValue K V) : Bool :=
  r.rangeTombstones.any fun rt => rt.shouldSuppress e.userKey e.seqno r.seqno

def resolveFrom (r : ReadView K V) (k : K) : List V → List (InternalValue K V) → Option V
  | acc, [] => settle r.mergeOperator k none acc
  | acc, e :: es =>
    if r.seqno ≤ e.seqno then resolveFrom r k acc es
    else if r.hides e then settle r.mergeOperator k none acc
    else match e.valueType with
      | .value => settle r.mergeOperator k (some e.value) acc
      | .indirection => settle r.mergeOperator k (some (r.deref e.value)) acc
      | .tombstone | .weakTombstone => settle r.mergeOperator k none acc
      | .mergeOperand =>
        match r.mergeOperator with
        | none => some e.value
        | some _ => resolveFrom r k (e.value :: acc) es

def resolve (r : ReadView K V) (k : K) (es : List (InternalValue K V)) : Option V :=
  r.resolveFrom k [] (es.filter fun e => e.userKey = k)

variable {r : ReadView K V} {e : InternalValue K V}

theorem hides_iff :
    r.hides e = true ↔ ∃ rt ∈ r.rangeTombstones,
      rt.seqno < r.seqno ∧ (rt.start ≤ e.userKey ∧ e.userKey < rt.stop) ∧ e.seqno < rt.seqno := by
  simp [hides, RangeTombstone.shouldSuppress_iff]

theorem hides_seqno_lt (h : r.hides e = true) :
    e.seqno < r.seqno := by
  obtain ⟨rt, -, hlt, -, he⟩ := hides_iff.1 h
  omega

theorem hides_older {f : InternalValue K V} (h : r.hides e = true) (hk : f.userKey = e.userKey)
    (hs : f.seqno ≤ e.seqno) : r.hides f = true := by
  obtain ⟨rt, hm, hlt, hc, he⟩ := hides_iff.1 h
  exact hides_iff.2 ⟨rt, hm, hlt, by rwa [hk], by omega⟩

section Walk

variable {r : ReadView K V} {k : K} {acc : List V} {e : InternalValue K V}
  {es : List (InternalValue K V)}

@[simp] theorem resolveFrom_nil : r.resolveFrom k acc [] = settle r.mergeOperator k none acc := rfl

theorem resolveFrom_invisible (h : r.seqno ≤ e.seqno) :
    r.resolveFrom k acc (e :: es) = r.resolveFrom k acc es := by
  rw [resolveFrom, if_pos h]

theorem resolveFrom_hidden (h : r.hides e = true) :
    r.resolveFrom k acc (e :: es) = settle r.mergeOperator k none acc := by
  rw [resolveFrom, if_neg (by have := hides_seqno_lt h; omega), if_pos h]

theorem resolveFrom_tombstone (hv : e.seqno < r.seqno) (ht : e.isTombstone = true) :
    r.resolveFrom k acc (e :: es) = settle r.mergeOperator k none acc := by
  cases hh : r.hides e with
  | true => exact resolveFrom_hidden hh
  | false =>
    unfold InternalValue.isTombstone at ht
    cases hty : e.valueType <;> rw [hty] at ht <;> try cases ht
    all_goals simp [resolveFrom, hh, hty, Nat.not_le.2 hv]

theorem resolveFrom_value (hv : e.seqno < r.seqno) (hh : r.hides e = false)
    (ht : e.valueType = .value) :
    r.resolveFrom k acc (e :: es) = settle r.mergeOperator k (some e.value) acc := by
  rw [resolveFrom, if_neg (by omega), hh, ht]
  simp

variable {m : MergeOperator K V}

theorem resolveFrom_operand (hv : e.seqno < r.seqno) (hh : r.hides e = false)
    (ht : e.valueType = .mergeOperand) (hm : r.mergeOperator = some m) :
    r.resolveFrom k acc (e :: es) = r.resolveFrom k (e.value :: acc) es := by
  rw [resolveFrom, if_neg (by omega), hh, ht, hm]
  simp

theorem resolveFrom_terminal (hv : e.seqno < r.seqno) (ht : e.valueType ≠ .mergeOperand)
    (es' : List (InternalValue K V)) :
    r.resolveFrom k acc (e :: es) = r.resolveFrom k acc (e :: es') := by
  cases hh : r.hides e with
  | true => rw [resolveFrom_hidden hh, resolveFrom_hidden hh]
  | false =>
    cases hty : e.valueType with
    | mergeOperand => exact absurd hty ht
    | _ => simp [resolveFrom, hh, hty, Nat.not_le.2 hv]

variable {es' : List (InternalValue K V)}

theorem resolveFrom_cons_congr (e : InternalValue K V)
    (h : ∀ acc, r.resolveFrom k acc es = r.resolveFrom k acc es') (acc : List V) :
    r.resolveFrom k acc (e :: es) = r.resolveFrom k acc (e :: es') := by
  by_cases hv : r.seqno ≤ e.seqno
  · rw [resolveFrom_invisible hv, resolveFrom_invisible hv, h acc]
  · by_cases ht : e.valueType = .mergeOperand
    · simp only [resolveFrom, if_neg hv, ht]
      cases r.mergeOperator with
      | none => rfl
      | some m => simp only [h]
    · exact resolveFrom_terminal (by omega) ht es'

theorem resolveFrom_alike {e' : InternalValue K V} (hty : e.valueType = e'.valueType)
    (hval : e.value = e'.value) (hvis : r.seqno ≤ e.seqno ↔ r.seqno ≤ e'.seqno)
    (hhid : r.hides e = r.hides e') (h : ∀ acc, r.resolveFrom k acc es = r.resolveFrom k acc es')
    (acc : List V) :
    r.resolveFrom k acc (e :: es) = r.resolveFrom k acc (e' :: es') := by
  simp only [resolveFrom, hty, hval, hvis, hhid, h]

theorem resolveFrom_all_hidden (h : ∀ e ∈ es, r.hides e = true) :
    r.resolveFrom k acc es = settle r.mergeOperator k none acc := by
  cases es with
  | nil => rfl
  | cons e es => exact resolveFrom_hidden (h e (by simp))

theorem resolveFrom_interchange (hm : r.mergeOperator = some m) {acc acc' : List V}
    (h : MergeLaws.Interchangeable (m.merge k) acc acc') (hne : acc ≠ []) (hne' : acc' ≠ []) :
    r.resolveFrom k acc es = r.resolveFrom k acc' es := by
  have hs : ∀ base, settle r.mergeOperator k base acc = settle r.mergeOperator k base acc' := by
    intro base
    rw [hm, settle_some m k base hne, settle_some m k base hne', h.merge_eq base]
  induction es generalizing acc acc' with
  | nil => exact hs none
  | cons e es ih =>
    have hi := ih (h.cons e.value) (by simp) (by simp) fun base => by
      rw [hm, settle_some m k base (by simp), settle_some m k base (by simp),
        (h.cons e.value).merge_eq base]
    simp only [resolveFrom, ih h hne hne' hs, hs]
    cases e.valueType with
    | mergeOperand => simp only [hm, hi]
    | _ => rfl

end Walk

end ReadView

end LsmTree
