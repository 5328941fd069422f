import LsmTree.Table.WriterOrder

/-! Restricted views of a table. -/
namespace LsmTree

structure TableView (K V : Type*) where
  table : Table K V
  /-- `restrict_lower_bound` -/
  restriction : Option K
  deriving DecidableEq, Repr

instance {K V : Type*} : TableMeta (TableView K V) K := ⟨(·.table.id), (·.table.keyRange)⟩

structure Block (K V : Type*) where
  entries : List (InternalValue K V)
  filled : entries ≠ []
  size : ℕ

/-- A block of the block index: its place in the file and its last key. -/
structure KeyedBlockHandle (K : Type*) where
  offset : ℕ
  size : ℕ
  endKey : K

/-- How the writer cut each table into data blocks; block sizes and compression decide it. -/
structure BlockLayout (K V : Type*) where
  blocks : Table K V → List (Block K V)
  content : ∀ t, (blocks t).flatMap (·.entries) = t.entries

variable {K V : Type*}

namespace TableView

def whole (t : Table K V) : TableView K V := ⟨t, none⟩

variable [LinearOrder K]

def isBelowRestriction (t : TableView K V) (k : K) : Bool := t.restriction.any (decide <| k < ·)

def visible (t : TableView K V) : List (InternalValue K V) :=
  t.table.entries.filter fun e => !t.isBelowRestriction e.userKey

/-- What the readers of the view get to see. -/
def read (t : TableView K V) : Table K V := { t.table with entries := t.visible }

/-- The bound that a slice commits: a restriction only rises. -/
def raised (t : TableView K V) (boundary : K) : K :=
  match t.restriction with
  | some committed => if boundary < committed then committed else boundary
  | none => boundary

/-- `reopen_restricted` at the bound that a slice commits. -/
def restrict (t : TableView K V) (boundary : K) : TableView K V :=
  ⟨t.table, some (t.raised boundary)⟩

structure Within (t' t : TableView K V) : Prop where
  table : t'.table = t.table
  rises : ∀ k, t.isBelowRestriction k = true → t'.isBelowRestriction k = true

theorem Within.refl (t : TableView K V) : t.Within t := ⟨rfl, fun _ => id⟩

theorem Within.trans {t t' t'' : TableView K V} (h : t''.Within t') (h' : t'.Within t) :
    t''.Within t := ⟨h.table.trans h'.table, fun k hk => h.rises k (h'.rises k hk)⟩

theorem restrict_below {t : TableView K V} {boundary k : K} :
    (t.restrict boundary).isBelowRestriction k = true ↔
      t.isBelowRestriction k = true ∨ k < boundary := by
  rcases t with ⟨table, _ | committed⟩
  · simp [isBelowRestriction, restrict, raised]
  · by_cases h : boundary < committed
    · simp only [isBelowRestriction, restrict, raised, h, if_true, Option.any_some,
        decide_eq_true_eq]
      exact ⟨Or.inl, fun hk => hk.elim id fun hk => hk.trans h⟩
    · simp only [isBelowRestriction, restrict, raised, h, if_false, Option.any_some,
        decide_eq_true_eq]
      exact ⟨Or.inr, fun hk => hk.elim (fun hk => hk.trans_le (not_lt.1 h)) id⟩

theorem restrict_within (t : TableView K V) (boundary : K) : (t.restrict boundary).Within t :=
  ⟨rfl, fun _ hk => restrict_below.2 (Or.inl hk)⟩

theorem restrict_visible (t : TableView K V) (boundary : K) :
    (t.restrict boundary).visible = t.visible.filter fun e => decide (boundary ≤ e.userKey) := by
  rw [visible, visible, List.filter_filter]
  refine List.filter_congr fun e _ => ?_
  have h := @restrict_below _ _ _ t boundary e.userKey
  rw [Bool.eq_iff_iff]
  simp only [Bool.not_eq_true', ← Bool.not_eq_true, h, not_or, not_lt, Bool.and_eq_true,
    decide_eq_true_eq]
  exact and_comm

theorem visible_pairwise {t : TableView K V} {r : InternalValue K V → InternalValue K V → Prop}
    (h : t.table.entries.Pairwise r) : t.visible.Pairwise r :=
  List.Pairwise.sublist List.filter_sublist h

end TableView

section Handles

def Block.endKey (b : Block K V) : K := (b.entries.getLast b.filled).userKey

/-- The block index: the blocks follow each other in the file. -/
def handlesFrom (offset : ℕ) : List (Block K V) → List (KeyedBlockHandle K × Block K V)
  | [] => []
  | b :: blocks => (⟨offset, b.size, b.endKey⟩, b) :: handlesFrom (offset + b.size) blocks

variable {blocks : List (Block K V)} {offset : ℕ} {h : KeyedBlockHandle K × Block K V}

theorem le_offset_handlesFrom (hh : h ∈ handlesFrom offset blocks) :
    offset ≤ h.1.offset := by
  induction blocks generalizing offset with
  | nil => cases hh
  | cons b blocks ih =>
    rcases List.mem_cons.1 hh with rfl | hh
    · exact Nat.le_refl _
    · exact (Nat.le_add_right _ _).trans (ih hh)

theorem mem_of_mem_handlesFrom (hh : h ∈ handlesFrom offset blocks) :
    h.2 ∈ blocks ∧ h.1.endKey = h.2.endKey := by
  induction blocks generalizing offset with
  | nil => cases hh
  | cons b blocks ih =>
    rcases List.mem_cons.1 hh with rfl | hh
    · exact ⟨List.mem_cons_self, rfl⟩
    · exact (ih hh).imp_left (List.mem_cons_of_mem b)

variable [LinearOrder K]

def punchOffsetFrom (dataEnd : ℕ) (key : K) : List (KeyedBlockHandle K) → ℕ
  | [] => dataEnd
  | h :: handles =>
    if h.endKey < key then punchOffsetFrom (h.offset + h.size) key handles else h.offset

/-- `punch_offset_for`: where the first block starts whose last key reaches `key`. -/
def punchOffsetFor (blocks : List (Block K V)) (key : K) : ℕ :=
  punchOffsetFrom 0 key ((handlesFrom 0 blocks).map (·.1))

theorem endKey_lt_of_lt_punchOffsetFrom {dataEnd : ℕ} {key : K} (hh : h ∈ handlesFrom offset blocks)
    (hlt : h.1.offset < punchOffsetFrom dataEnd key ((handlesFrom offset blocks).map (·.1))) :
    h.1.endKey < key := by
  induction blocks generalizing offset dataEnd with
  | nil => cases hh
  | cons b blocks ih =>
    simp only [handlesFrom, List.map_cons, punchOffsetFrom] at hlt
    split at hlt
    case isTrue hend =>
      rcases List.mem_cons.1 hh with rfl | hh
      · exact hend
      · exact ih hh hlt
    case isFalse =>
      -- the offset is that of the first block, and no block starts before it
      exact absurd hlt (Nat.not_lt.2 (le_offset_handlesFrom hh))

/-- The blocks that a punch up to `offset` takes out of the file, by their offset. -/
def reclaimable (blocks : List (Block K V)) (offset : ℕ) : List ℕ :=
  ((handlesFrom 0 blocks).map (·.1.offset)).filter fun o => decide (o < offset)

/-- Every entry of the blocks at these offsets of the table's file is below the restriction. -/
def TableView.SafelyPunched (layout : BlockLayout K V) (t : TableView K V) (offsets : List ℕ) :
    Prop :=
  ∀ h ∈ handlesFrom 0 (layout.blocks t.table), h.1.offset ∈ offsets →
    ∀ e ∈ h.2.entries, t.isBelowRestriction e.userKey = true

theorem TableView.SafelyPunched.within {layout : BlockLayout K V} {t t' : TableView K V}
    {offsets : List ℕ} (h : t.SafelyPunched layout offsets) (hw : t'.Within t) :
    t'.SafelyPunched layout offsets := by
  intro handle hh ho e he
  rw [hw.table] at hh
  exact hw.rises _ (h handle hh ho e he)

theorem BlockLayout.reclaimable_below (layout : BlockLayout K V) {t : Table K V}
    (hs : KeySorted t.entries) {bound : K} (hh : h ∈ handlesFrom 0 (layout.blocks t))
    (ho : h.1.offset ∈ reclaimable (layout.blocks t) (punchOffsetFor (layout.blocks t) bound)) :
    ∀ e ∈ h.2.entries, e.userKey < bound := by
  intro e he
  obtain ⟨hmem, hend⟩ := mem_of_mem_handlesFrom hh
  have hlt : h.1.endKey < bound :=
    endKey_lt_of_lt_punchOffsetFrom hh (of_decide_eq_true (List.mem_filter.1 ho).2)
  have hsub : h.2.entries.Sublist t.entries := by
    rw [← layout.content t, List.flatMap_def]
    exact List.sublist_flatten_of_mem (List.mem_map_of_mem hmem)
  have hlast : h.2.entries.getLast? = some (h.2.entries.getLast h.2.filled) :=
    List.getLast?_eq_some_getLast h.2.filled
  have hle := KeySorted.le_getLast (List.Pairwise.sublist hsub hs) hlast he
  rw [hend] at hlt
  exact hle.trans_lt hlt

end Handles

end LsmTree
