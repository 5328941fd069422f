import Mathlib

/-! Finite maps with distinct keys in no particular order, and the total of a measure of their
entries. -/

/-- A hash table read as the list of its entries. -/
structure KeyTable (K α : Type*) where
  entries : List (K × α)
  distinct : (entries.map Prod.fst).Nodup

namespace KeyTable

open List

variable {K α : Type*}

def empty : KeyTable K α := ⟨[], nodup_nil⟩

def total (f : α → ℕ) (t : KeyTable K α) : ℕ := (t.entries.map fun e => f e.2).sum

@[simp] theorem total_empty (f : α → ℕ) : (empty : KeyTable K α).total f = 0 := rfl

variable [DecidableEq K]

def find (t : KeyTable K α) (key : K) : Option α :=
  (t.entries.find? fun e => decide (e.1 = key)).map Prod.snd

def erase (t : KeyTable K α) (key : K) : KeyTable K α :=
  ⟨t.entries.filter fun e => decide (e.1 ≠ key), t.distinct.sublist (filter_sublist.map _)⟩

variable {t : KeyTable K α} {key : K}

theorem find_eq_none :
    t.find key = none ↔ ∀ e ∈ t.entries, e.1 ≠ key := by
  simp [find]

theorem find_erase_self (t : KeyTable K α) (key : K) : (t.erase key).find key = none := by
  apply find_eq_none.2
  intro e he
  exact of_decide_eq_true (mem_filter.1 he).2

/-- `insert_unique`, or the update of a slot in place -/
def put (t : KeyTable K α) (key : K) (a : α) : KeyTable K α :=
  ⟨(key, a) :: (t.erase key).entries, nodup_cons.2 ⟨fun h => by
    obtain ⟨e, he, hkey⟩ := mem_map.1 h
    exact find_eq_none.1 (find_erase_self t key) e he hkey, (t.erase key).distinct⟩⟩

@[simp] theorem find_empty (key : K) : (empty : KeyTable K α).find key = none := rfl

theorem find_erase (t : KeyTable K α) (key other : K) :
    (t.erase key).find other = if other = key then none else t.find other := by
  by_cases h : other = key
  · rw [if_pos h, h, find_erase_self]
  · rw [if_neg h]
    unfold find erase
    rw [find?_filter]
    congr 2
    funext e
    by_cases he : e.1 = other
    · simp [he, h]
    · simp [he]

theorem find_put (t : KeyTable K α) (key other : K) (a : α) :
    (t.put key a).find other = if other = key then some a else t.find other := by
  by_cases h : other = key
  · simp [find, put, h]
  · have hne : ¬ key = other := fun he => h he.symm
    rw [if_neg h, ← (find_erase t key other).trans (if_neg h)]
    simp [find, put, hne]

theorem total_put (f : α → ℕ) (t : KeyTable K α) (key : K) (a : α) :
    (t.put key a).total f = (t.erase key).total f + f a := by
  simp [total, put, add_comm]

theorem total_of_find (f : α → ℕ) {a : α} (h : t.find key = some a) :
    t.total f = (t.erase key).total f + f a := by
  obtain ⟨entries, distinct⟩ := t
  unfold total erase
  unfold find at h
  dsimp only at h ⊢
  induction entries with
  | nil => cases h
  | cons e rest ih =>
    obtain ⟨hfresh, hrest⟩ := nodup_cons.1 distinct
    by_cases he : e.1 = key
    · have hall : rest.filter (fun x => decide (x.1 ≠ key)) = rest := by
        apply filter_eq_self.2
        intro x hx
        exact decide_eq_true fun hk => hfresh (mem_map.2 ⟨x, hx, hk.trans he.symm⟩)
      have ha : e.2 = a := by simpa [he] using h
      rw [filter_cons_of_neg (by simp [he]), hall, map_cons, sum_cons, ha, add_comm]
    · have hnext := ih hrest (by simpa [he] using h)
      rw [filter_cons_of_pos (by simp [he]), map_cons, map_cons, sum_cons,
        sum_cons, hnext, add_assoc]

theorem erase_eq_self (h : t.find key = none) : t.erase key = t := by
  obtain ⟨entries, distinct⟩ := t
  unfold erase
  congr 1
  apply filter_eq_self.2
  intro e he
  exact decide_eq_true (find_eq_none.1 h e he)

theorem total_eq_zero (f : α → ℕ) (h : ∀ key, t.find key = none) :
    t.total f = 0 := by
  have hnil : t.entries = [] := by
    apply eq_nil_iff_forall_not_mem.2
    intro e he
    exact find_eq_none.1 (h e.1) e he rfl
  rw [total, hnil]
  rfl

end KeyTable
