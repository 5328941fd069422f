import Mathlib

/-! Finite maps as association lists in strictly ascending key order, so that maps with the
same lookups are equal. -/

structure IdMap (K α : Type*) [LinearOrder K] where
  entries : List (K × α)
  sorted : entries.Pairwise fun x y => x.1 < y.1

namespace IdMap

open List Option

variable {K α : Type*} [LinearOrder K]

instance [DecidableEq α] : DecidableEq (IdMap K α) := fun a b =>
  decidable_of_iff (a.entries = b.entries) ⟨fun h => by cases a; cases b; cases h; rfl, congrArg _⟩

def empty : IdMap K α := ⟨[], List.Pairwise.nil⟩

def insertEntry (k : K) (v : α) : List (K × α) → List (K × α)
  | [] => [(k, v)]
  | x :: xs =>
    if k < x.1 then (k, v) :: x :: xs
    else if k = x.1 then (k, v) :: xs
    else x :: insertEntry k v xs

variable {k : K} {v : α} {l : List (K × α)} {y : K × α}

theorem mem_insertEntry (h : y ∈ insertEntry k v l) : y = (k, v) ∨ y ∈ l := by
  induction l with
  | nil => exact Or.inl (mem_singleton.1 h)
  | cons x xs ih =>
    rw [insertEntry] at h
    split_ifs at h with h1 h2
    · exact mem_cons.1 h
    · rcases mem_cons.1 h with h | h
      · exact Or.inl h
      · exact Or.inr (mem_cons_of_mem _ h)
    · rcases mem_cons.1 h with h | h
      · exact Or.inr (h ▸ mem_cons_self)
      · exact (ih h).imp_right (mem_cons_of_mem _)

theorem insertEntry_sorted (h : l.Pairwise fun x y => x.1 < y.1) :
    (insertEntry k v l).Pairwise fun x y => x.1 < y.1 := by
  induction l with
  | nil => exact pairwise_singleton _ _
  | cons x xs ih =>
    have hx := pairwise_cons.1 h
    rw [insertEntry]
    split_ifs with h1 h2
    · apply pairwise_cons.2
      refine ⟨fun y hy => ?_, h⟩
      rcases mem_cons.1 hy with rfl | hy
      · exact h1
      · exact lt_trans h1 (hx.1 y hy)
    · exact pairwise_cons.2 ⟨fun y hy => h2 ▸ hx.1 y hy, hx.2⟩
    · apply pairwise_cons.2
      refine ⟨fun y hy => ?_, ih hx.2⟩
      rcases mem_insertEntry hy with rfl | hy
      · exact lt_of_le_of_ne (not_lt.1 h1) (Ne.symm h2)
      · exact hx.1 y hy

def insert (m : IdMap K α) (k : K) (v : α) : IdMap K α :=
  ⟨insertEntry k v m.entries, insertEntry_sorted m.sorted⟩

def ofList (l : List (K × α)) : IdMap K α := l.foldl (fun m x => m.insert x.1 x.2) empty

def lookup (k : K) (l : List (K × α)) : Option α := (l.find? fun x => decide (x.1 = k)).map (·.2)

def get (m : IdMap K α) (k : K) : Option α := lookup k m.entries

theorem lookup_cons (k : K) (x : K × α) (l : List (K × α)) :
    lookup k (x :: l) = if x.1 = k then some x.2 else lookup k l := by
  unfold lookup
  by_cases h : x.1 = k <;> simp [h]

theorem lookup_eq_some (h : l.Pairwise fun x y => x.1 ≠ y.1) :
    lookup k l = some v ↔ (k, v) ∈ l := by
  induction l with
  | nil => simp [lookup]
  | cons x xs ih =>
    have hx := pairwise_cons.1 h
    rw [lookup_cons, mem_cons]
    by_cases hk : x.1 = k
    · rw [if_pos hk]
      constructor
      · intro hv
        exact Or.inl (Prod.ext hk.symm (Option.some.inj hv).symm)
      · rintro (hv | hv)
        · rw [← hv]
        · exact absurd hk (hx.1 _ hv)
    · rw [if_neg hk, ih hx.2]
      constructor
      · exact Or.inr
      · rintro (hv | hv)
        · exact absurd (congrArg Prod.fst hv).symm hk
        · exact hv

theorem lookup_eq_none : lookup k l = none ↔ ∀ x ∈ l, x.1 ≠ k := by
  simp [lookup]

theorem lookup_map {β : Type*} (f : K → α → β) (k : K) (l : List (K × α)) :
    lookup k (l.map fun x => (x.1, f x.1 x.2)) = (lookup k l).map (f k) := by
  induction l with
  | nil => rfl
  | cons x xs ih =>
    rw [map_cons, lookup_cons, lookup_cons, ih]
    split_ifs with hk
    · rw [hk, map_some]
    · rfl

theorem lookup_filter (p : K → Bool) (k : K) (l : List (K × α)) :
    lookup k (l.filter fun x => p x.1) = if p k = true then lookup k l else none := by
  induction l with
  | nil => simp [lookup]
  | cons x xs ih =>
    rw [filter_cons]
    by_cases hx : p x.1 = true
    · rw [if_pos hx, lookup_cons, lookup_cons, ih]
      by_cases hk : x.1 = k
      · rw [if_pos hk, if_pos hk, if_pos (hk ▸ hx)]
      · rw [if_neg hk, if_neg hk]
    · rw [if_neg hx, ih, lookup_cons]
      by_cases hk : x.1 = k
      · rw [if_neg (hk ▸ hx), if_neg (hk ▸ hx)]
      · rw [if_neg hk]

variable {m : IdMap K α}

theorem get_eq_some : m.get k = some v ↔ (k, v) ∈ m.entries :=
  lookup_eq_some (m.sorted.imp ne_of_lt)

theorem lookup_insertEntry (k : K) (v : α) (l : List (K × α)) (k' : K)
    (h : l.Pairwise fun x y => x.1 < y.1) :
    lookup k' (insertEntry k v l) = if k = k' then some v else lookup k' l := by
  induction l with
  | nil => rw [insertEntry, lookup_cons]
  | cons x xs ih =>
    have hx := pairwise_cons.1 h
    rw [insertEntry]
    by_cases h1 : k < x.1
    · rw [if_pos h1, lookup_cons]
    · rw [if_neg h1]
      by_cases h2 : k = x.1
      · rw [if_pos h2, lookup_cons, lookup_cons, ← h2]
        split_ifs <;> rfl
      · rw [if_neg h2, lookup_cons, lookup_cons, ih hx.2]
        by_cases h3 : k = k'
        · rw [if_pos h3, if_neg fun he => h2 (h3.trans he.symm), if_pos h3]
        · rw [if_neg h3, if_neg h3]

theorem get_insert (m : IdMap K α) (k : K) (v : α) (k' : K) :
    (m.insert k v).get k' = if k = k' then some v else m.get k' :=
  lookup_insertEntry k v m.entries k' m.sorted

variable {l' : List (K × α)}

theorem perm_of_lookup (hl : l.Pairwise fun x y => x.1 ≠ y.1)
    (hl' : l'.Pairwise fun x y => x.1 ≠ y.1) (h : ∀ k, lookup k l = lookup k l') : l.Perm l' := by
  have hnodup : ∀ {m : List (K × α)}, (m.Pairwise fun x y => x.1 ≠ y.1) → m.Nodup :=
    fun hm => hm.imp fun hne he => hne (congrArg Prod.fst he)
  apply (perm_ext_iff_of_nodup (hnodup hl) (hnodup hl')).2
  rintro ⟨k, v⟩
  rw [← lookup_eq_some hl, ← lookup_eq_some hl', h]

theorem lookup_perm (hl : l.Pairwise fun x y => x.1 ≠ y.1) (h : l.Perm l') (k : K) :
    lookup k l = lookup k l' := by
  have hl' : l'.Pairwise fun x y => x.1 ≠ y.1 := h.pairwise hl fun hne he => hne he.symm
  apply Option.ext
  intro v
  rw [lookup_eq_some hl, lookup_eq_some hl', h.mem_iff]

theorem entries_ext (hl : l.Pairwise fun x y => x.1 < y.1) (hl' : l'.Pairwise fun x y => x.1 < y.1)
    (h : ∀ x, x ∈ l ↔ x ∈ l') : l = l' := by
  have hnodup : ∀ {m : List (K × α)}, (m.Pairwise fun x y => x.1 < y.1) → m.Nodup :=
    fun hm => hm.imp fun hxy he => (ne_of_lt hxy) (congrArg Prod.fst he)
  apply List.Perm.eq_of_pairwise _ hl hl'
  · exact (perm_ext_iff_of_nodup (hnodup hl) (hnodup hl')).2 h
  · intro a b _ _ hab hba
    exact absurd (lt_trans hab hba) (lt_irrefl _)

theorem ext_get {a b : IdMap K α} (h : ∀ k, a.get k = b.get k) : a = b := by
  have hentries : a.entries = b.entries := by
    apply entries_ext a.sorted b.sorted
    rintro ⟨k, v⟩
    rw [← get_eq_some, ← get_eq_some, h k]
  cases a
  cases b
  cases hentries
  rfl

theorem get_foldl_insert (l : List (K × α)) (m : IdMap K α)
    (h : l.Pairwise fun x y => x.1 ≠ y.1) (k : K) :
    (l.foldl (fun m x => m.insert x.1 x.2) m).get k = (lookup k l).or (m.get k) := by
  induction l generalizing m with
  | nil => rfl
  | cons x xs ih =>
    have hx := pairwise_cons.1 h
    rw [foldl_cons, ih _ hx.2, get_insert, lookup_cons]
    split_ifs with hk
    · have hnone : lookup k xs = none := by
        rw [eq_none_iff_forall_ne_some]
        intro v hv
        exact hx.1 _ ((lookup_eq_some hx.2).1 hv) hk
      rw [hnone, none_or, some_or]
    · rfl

theorem get_ofList (h : l.Pairwise fun x y => x.1 ≠ y.1) (k : K) :
    (ofList l).get k = lookup k l := by
  rw [ofList, get_foldl_insert l empty h]
  exact or_none

theorem mem_foldl_insert (h : y ∈ (l.foldl (fun m x => m.insert x.1 x.2) m).entries) :
    y ∈ m.entries ∨ y ∈ l := by
  induction l generalizing m with
  | nil => exact Or.inl h
  | cons x xs ih =>
    rcases ih h with h | h
    · rcases mem_insertEntry h with rfl | h
      · exact Or.inr mem_cons_self
      · exact Or.inl h
    · exact Or.inr (mem_cons_of_mem _ h)

theorem mem_ofList (h : y ∈ (ofList l).entries) : y ∈ l :=
  (mem_foldl_insert h).resolve_left fun hnil => nomatch hnil

theorem ofList_length_le (l : List (K × α)) : (ofList l).entries.length ≤ l.length := by
  have hnodup : (ofList l).entries.Nodup := (ofList l).sorted.imp fun hlt heq => by
    rw [heq] at hlt
    exact lt_irrefl _ hlt
  exact (List.Nodup.subperm hnodup fun _ hy => mem_ofList hy).length_le

theorem ofList_entries (m : IdMap K α) : ofList m.entries = m :=
  ext_get fun k => get_ofList (m.sorted.imp ne_of_lt) k

end IdMap
