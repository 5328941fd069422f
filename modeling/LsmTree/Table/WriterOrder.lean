import LsmTree.Table.MultiWriter
import LsmTree.Version.Order

/-! The tables that a writer makes of a stream in key order: they follow each other, and each
holds its entries within its key range. -/
namespace LsmTree

open List Option

variable {K V : Type*} [LinearOrder K]

def KeySorted (items : List (InternalValue K V)) : Prop :=
  items.Pairwise fun a b => a.userKey ≤ b.userKey

theorem KeySorted.le_getLast {items : List (InternalValue K V)} (hs : KeySorted items)
    {e last : InternalValue K V} (hlast : items.getLast? = some last) (he : e ∈ items) :
    e.userKey ≤ last.userKey := by
  rw [← dropLast_append_getLast? last hlast] at hs he
  rcases mem_append.1 he with he | he
  · exact (pairwise_append.1 hs).2.2 e he last (mem_singleton_self last)
  · rw [mem_singleton.1 he]

/-- The key range is not inverted and bounds the entries, which are in key order. -/
structure Table.WF (t : Table K V) : Prop where
  valid : t.keyRange.min ≤ t.keyRange.max
  sorted : KeySorted t.entries
  bounds : ∀ e ∈ t.entries, t.keyRange.min ≤ e.userKey ∧ e.userKey ≤ t.keyRange.max

instance (items : List (InternalValue K V)) : Decidable (KeySorted items) :=
  inferInstanceAs (Decidable (items.Pairwise _))

instance (t : Table K V) : Decidable t.WF :=
  decidable_of_iff (t.keyRange.min ≤ t.keyRange.max ∧ KeySorted t.entries ∧
    ∀ e ∈ t.entries, t.keyRange.min ≤ e.userKey ∧ e.userKey ≤ t.keyRange.max)
    ⟨fun h => ⟨h.1, h.2.1, h.2.2⟩, fun h => ⟨h.valid, h.sorted, h.bounds⟩⟩

section Windows

variable {full : ℕ → List (InternalValue K V) → Bool} {n : ℕ}
  {current items : List (InternalValue K V)} {key : Option K}

theorem windowsFrom_sublist {w : Window K V} (h : w ∈ windowsFrom full n current key items) :
    w.items.Sublist (current ++ items) := by
  induction items generalizing n current key with
  | nil =>
    rw [windowsFrom, mem_singleton] at h
    simp [h]
  | cons item items ih =>
    rw [windowsFrom] at h
    split at h
    · rcases mem_cons.1 h with rfl | h
      · exact sublist_append_left _ _
      · exact (ih h).trans (sublist_append_right current (item :: items))
    · have := ih h
      rwa [append_assoc] at this

theorem windowsFrom_upper {w : Window K V} (h : w ∈ windowsFrom full n current key items) :
    ∀ u ∈ w.upper, ∃ e ∈ items, e.userKey = u := by
  induction items generalizing n current key with
  | nil =>
    rw [windowsFrom, mem_singleton] at h
    rw [h]
    intro u hu
    cases hu
  | cons item items ih =>
    intro u hu
    have hrest : ∀ {current' n'}, w ∈ windowsFrom full n' current' (some item.userKey) items →
        ∃ e ∈ item :: items, e.userKey = u := by
      intro current' n' hw
      obtain ⟨e, he, hk⟩ := ih hw u hu
      exact ⟨e, mem_cons_of_mem _ he, hk⟩
    rw [windowsFrom] at h
    split at h
    · rcases mem_cons.1 h with rfl | h
      · cases hu
        exact ⟨item, mem_cons_self, rfl⟩
      · exact hrest h
    · exact hrest h

def Window.Precedes (w w' : Window K V) : Prop :=
  ∃ u, w.upper = some u ∧ ∀ e ∈ w'.items, u ≤ e.userKey

theorem lt_of_sorted_of_last (hs : KeySorted (current ++ items))
    (hkey : key = current.getLast?.map (·.userKey)) {item : InternalValue K V}
    (hi : item ∈ items) (hne : key ≠ some item.userKey) : ∀ e ∈ current, e.userKey < item.userKey := by
  intro e he
  obtain ⟨hcur, -, hcross⟩ := pairwise_append.1 hs
  obtain ⟨last, hlast⟩ : ∃ last, current.getLast? = some last :=
    isSome_iff_exists.1 (by simpa using ne_nil_of_mem he)
  have hlt : last.userKey < item.userKey := by
    refine lt_of_le_of_ne (hcross last (mem_of_getLast? hlast) item hi) fun heq => hne ?_
    rw [hkey, hlast, map_some, heq]
  exact (KeySorted.le_getLast hcur hlast he).trans_lt hlt

theorem windowsFrom_lt_upper (hs : KeySorted (current ++ items))
    (hkey : key = current.getLast?.map (·.userKey)) {w : Window K V}
    (h : w ∈ windowsFrom full n current key items) :
    ∀ u ∈ w.upper, ∀ e ∈ w.items, e.userKey < u := by
  induction items generalizing n current key with
  | nil =>
    rw [windowsFrom, mem_singleton] at h
    rw [h]
    intro u hu
    cases hu
  | cons item items ih =>
    rw [windowsFrom] at h
    split at h
    case isTrue hcut =>
      rcases mem_cons.1 h with rfl | h
      · intro u hu
        cases hu
        exact lt_of_sorted_of_last hs hkey mem_cons_self hcut.1
      · have htail : KeySorted ([item] ++ items) := (pairwise_append.1 hs).2.1
        exact ih htail rfl h
    case isFalse =>
      refine ih ?_ (by simp) h
      rwa [append_assoc]

theorem windowsFrom_precedes (hs : KeySorted (current ++ items)) :
    (windowsFrom full n current key items).Pairwise Window.Precedes := by
  induction items generalizing n current key with
  | nil => exact pairwise_singleton _ _
  | cons item items ih =>
    rw [windowsFrom]
    split
    · have htail : KeySorted ([item] ++ items) := (pairwise_append.1 hs).2.1
      refine pairwise_cons.2 ⟨?_, ih htail⟩
      intro w hw
      refine ⟨item.userKey, rfl, ?_⟩
      intro e he
      rcases mem_append.1 ((windowsFrom_sublist hw).subset he) with he | he
      · rw [mem_singleton.1 he]
      · exact (pairwise_append.1 htail).2.2 item (by simp) e he
    · refine ih ?_
      rwa [append_assoc]

end Windows

section Seal

variable [RawKey K] [Inhabited V] {w : Window K V} {rts : List (RangeTombstone K)}
  {tableIds : ℕ → ℕ} {id n : ℕ} {t : Table K V} {registered : List (InternalValue K V) → ℕ}

theorem Window.seal_wf {clip : Bool} (hne : w.items ≠ []) (hs : KeySorted w.items)
    (ht : w.seal registered clip rts id = some t) : t.WF ∧ w.Sealed registered clip rts t := by
  obtain ⟨t, heq, -, hsealed⟩ := w.seal_items hne clip id
  cases heq.symm.trans ht
  obtain ⟨item, items, hw⟩ := exists_cons_of_ne_nil hne
  obtain ⟨last, hlast⟩ : ∃ last, w.items.getLast? = some last :=
    isSome_iff_exists.1 (by simp [hw])
  have hfirst := (hsealed.first item (by rw [hw]; rfl)).1
  have hbounds : ∀ e ∈ w.items, t.keyRange.min ≤ e.userKey ∧ e.userKey ≤ t.keyRange.max := by
    intro e he
    refine ⟨hfirst.trans ?_, (hs.le_getLast hlast he).trans (hsealed.last last hlast).1⟩
    rw [hw] at he hs
    rcases mem_cons.1 he with rfl | he
    · exact le_rfl
    · exact (pairwise_cons.1 hs).1 e he
  have hitem := hbounds item (by simp [hw])
  exact ⟨⟨hitem.1.trans hitem.2, hsealed.entries ▸ hs, hsealed.entries ▸ hbounds⟩, hsealed⟩

theorem Window.seal_spec (hne : w.items ≠ []) (hs : KeySorted w.items)
    (hu : ∀ u ∈ w.upper, ∀ e ∈ w.items, e.userKey < u)
    (ht : w.seal registered true rts id = some t) :
    t.WF ∧ (∀ u ∈ w.upper, t.keyRange.max < u) ∧
      (∃ e ∈ w.items, t.keyRange.min = e.userKey) ∧
      (w.upper = none → ∃ e ∈ w.items, t.keyRange.max = e.userKey) := by
  obtain ⟨hwf, hsealed⟩ := Window.seal_wf hne hs ht
  obtain ⟨item, items, hw⟩ := exists_cons_of_ne_nil hne
  obtain ⟨last, hlast⟩ : ∃ last, w.items.getLast? = some last :=
    isSome_iff_exists.1 (by simp [hw])
  have hmem : last ∈ w.items := mem_of_getLast? hlast
  obtain ⟨hU, hN⟩ := (hsealed.last last hlast).2 rfl
  exact ⟨hwf, fun u hu' => hU u hu' (hu u hu' last hmem),
    ⟨item, by simp [hw], (hsealed.first item (by rw [hw]; rfl)).2 rfl⟩,
    fun hnone => ⟨last, hmem, hN hnone⟩⟩

theorem mem_sealFrom {clip : Bool} {ws : List (Window K V)}
    (h : t ∈ sealFrom registered clip rts tableIds n ws) :
    ∃ w ∈ ws, ∃ i, w.seal registered clip rts (tableIds i) = some t := by
  induction ws generalizing n with
  | nil => cases h
  | cons w ws ih =>
    rcases mem_append.1 h with h | h
    · exact ⟨w, mem_cons_self, n, by simpa using h⟩
    · obtain ⟨w', hw', i, hi⟩ := ih h
      exact ⟨w', mem_cons_of_mem _ hw', i, hi⟩

theorem Window.seal_tombstones_nil (h : w.items = []) : w.seal registered true [] id = none := by
  rw [Window.seal_nil h]
  rfl

end Seal

section Written

variable [RawKey K] [Inhabited V] {full : ℕ → List (InternalValue K V) → Bool}
  {items : List (InternalValue K V)} {rts : List (RangeTombstone K)} {tableIds : ℕ → ℕ}
  {registered : List (InternalValue K V) → ℕ}

/-- The stream is not cut before its first item, or there is no tombstone to write there. -/
def NoTombstoneOnly (full : ℕ → List (InternalValue K V) → Bool)
    (items : List (InternalValue K V)) (rts : List (RangeTombstone K)) : Prop :=
  ∀ w ∈ windows full items, w.items = [] → rts = []

structure Written (items : List (InternalValue K V)) (t : Table K V) : Prop where
  wf : t.WF
  first : ∃ e ∈ items, t.keyRange.min = e.userKey
  last : ∃ e ∈ items, t.keyRange.max ≤ e.userKey

theorem written_of_seal (hs : KeySorted items) (hto : NoTombstoneOnly full items rts)
    {w : Window K V} (hw : w ∈ windows full items) {id : ℕ} {t : Table K V}
    (ht : w.seal registered true rts id = some t) :
    w.items ≠ [] ∧ Written items t ∧ (∀ u ∈ w.upper, t.keyRange.max < u) ∧
      ∃ e ∈ w.items, t.keyRange.min = e.userKey := by
  have hne : w.items ≠ [] := by
    intro hnil
    rw [hto w hw hnil, Window.seal_tombstones_nil hnil] at ht
    cases ht
  have hsub : w.items.Sublist items := windowsFrom_sublist hw
  obtain ⟨hwf, hmax, ⟨e, he, hmin⟩, hnone⟩ := Window.seal_spec hne
    (List.Pairwise.sublist hsub hs) (windowsFrom_lt_upper (nil_append items ▸ hs) rfl hw) ht
  refine ⟨hne, ⟨hwf, ⟨e, hsub.subset he, hmin⟩, ?_⟩, hmax, e, he, hmin⟩
  cases hu : w.upper with
  | none =>
    obtain ⟨l, hl, hmaxl⟩ := hnone hu
    exact ⟨l, hsub.subset hl, hmaxl.le⟩
  | some u =>
    obtain ⟨l, hl, hkey⟩ := windowsFrom_upper hw u hu
    exact ⟨l, hl, hkey ▸ (hmax u hu).le⟩

theorem sealFrom_sorted {ws : List (Window K V)} {n : ℕ} (hs : KeySorted items)
    (hto : NoTombstoneOnly full items rts) (hsub : ∀ w ∈ ws, w ∈ windows full items)
    (hp : ws.Pairwise Window.Precedes) :
    SortedRun (sealFrom registered true rts tableIds n ws) := by
  induction ws generalizing n with
  | nil => exact List.Pairwise.nil
  | cons w ws ih =>
    obtain ⟨hw, hws⟩ := forall_mem_cons.1 hsub
    obtain ⟨hhead, htail⟩ := pairwise_cons.1 hp
    refine pairwise_append.2
      ⟨by cases w.seal registered true rts (tableIds n) <;> simp, ih hws htail, ?_⟩
    intro t ht t' ht'
    obtain ⟨-, -, hmax, -⟩ := written_of_seal hs hto hw (mem_toList.1 ht)
    obtain ⟨w', hw', i, hseal⟩ := mem_sealFrom ht'
    obtain ⟨-, -, -, e, he, hmin⟩ := written_of_seal hs hto (hws w' hw') hseal
    obtain ⟨u, hu, hge⟩ := hhead w' hw'
    have := (hmax u hu).trans_le (hge e he)
    rwa [← hmin] at this

theorem writeAll_written (hs : KeySorted items) (hto : NoTombstoneOnly full items rts) :
    SortedRun ((MultiWriter.new tableIds full registered true rts).writeAll items) ∧
      ∀ t ∈ (MultiWriter.new tableIds full registered true rts).writeAll items, Written items t := by
  rw [MultiWriter.writeAll_new]
  refine ⟨sealFrom_sorted hs hto (fun _ h => h) (windowsFrom_precedes hs), ?_⟩
  intro t ht
  obtain ⟨w, hw, i, hseal⟩ := mem_sealFrom ht
  exact (written_of_seal hs hto hw hseal).2.1

end Written

section Flush

variable [RawKey K] [Inhabited V] {full : ℕ → List (InternalValue K V) → Bool}
  {items : List (InternalValue K V)} {rts : List (RangeTombstone K)} {tableIds : ℕ → ℕ}
  {registered : List (InternalValue K V) → ℕ}

variable {w : Window K V} {id : ℕ} {t : Table K V} {clip : Bool}

variable {n : ℕ} {current : List (InternalValue K V)} {key : Option K}

omit [RawKey K] [Inhabited V] in
theorem windowsFrom_items :
    (windowsFrom full n current key items).flatMap (·.items) = current ++ items := by
  induction items generalizing n current key with
  | nil => simp [windowsFrom]
  | cons item items ih =>
    rw [windowsFrom]
    split
    · simp [ih]
    · simp [ih, append_assoc]

omit [RawKey K] [Inhabited V] in
theorem windowsFrom_ne_nil (hc : current ≠ []) :
    ∀ w ∈ windowsFrom full n current key items, w.items ≠ [] := by
  induction items generalizing n current key with
  | nil =>
    intro w hw
    rw [windowsFrom, mem_singleton] at hw
    rwa [hw]
  | cons item items ih =>
    intro w hw
    rw [windowsFrom] at hw
    split at hw
    · rcases mem_cons.1 hw with rfl | hw
      · exact hc
      · exact ih (cons_ne_nil _ _) w hw
    · exact ih (by simp) w hw

omit [RawKey K] [Inhabited V] in
theorem windows_ne_nil (hfull : full 0 [] = false) (hne : items ≠ []) :
    ∀ w ∈ windows full items, w.items ≠ [] := by
  obtain ⟨item, items, rfl⟩ := exists_cons_of_ne_nil hne
  intro w hw
  rw [windows, windowsFrom, if_neg (by simp [hfull])] at hw
  exact windowsFrom_ne_nil (by simp) w hw

variable {ws : List (Window K V)}

theorem sealFrom_entries (hne : rts = [] ∨ ∀ w ∈ ws, w.items ≠ []) :
    (sealFrom registered clip rts tableIds n ws).flatMap (·.entries) = ws.flatMap (·.items) := by
  induction ws generalizing n with
  | nil => rfl
  | cons w ws ih =>
    rw [sealFrom, flatMap_append, flatMap_cons,
      ih (hne.imp_right fun h => (forall_mem_cons.1 h).2)]
    congr 1
    by_cases hw : w.items = []
    · -- no entries: the window is dropped, as there are no range tombstones to keep
      have hrts : rts = [] := hne.resolve_right fun h => h w mem_cons_self hw
      rw [Window.seal_nil hw, hrts, hw]
      rfl
    · obtain ⟨t, heq, -, hsealed⟩ := w.seal_items hw clip (tableIds n)
      rw [heq, Option.toList_some, flatMap_singleton, hsealed.entries]

theorem writeAll_contents (h : rts = [] ∨ ∀ w ∈ windows full items, w.items ≠ []) :
    ((MultiWriter.new tableIds full registered clip rts).writeAll items).flatMap (·.entries) =
      items := by
  rw [MultiWriter.writeAll_new, sealFrom_entries h, windows, windowsFrom_items, nil_append]

theorem writeAll_flush_nil :
    ((MultiWriter.new tableIds full registered false rts).writeAll []).flatMap (·.entries) = [] ↔
      rts = [] := by
  rw [MultiWriter.writeAll_new]
  have hseal : (⟨[], none⟩ : Window K V).seal registered false rts (tableIds 0) = _ :=
    Window.seal_nil rfl
  simp only [windows, windowsFrom, sealFrom, hseal, append_nil]
  cases rts with
  | nil => simp [Writer.finishTombstonesOnly]
  | cons rt rest => simp [Writer.finishTombstonesOnly, RangeTombstone.sentinel]

/-- A table without items has its key range in comparator order, if it is made at all. -/
def TombstoneOnlyWF (full : ℕ → List (InternalValue K V) → Bool)
    (registered : List (InternalValue K V) → ℕ) (items : List (InternalValue K V)) (rts : List (RangeTombstone K)) : Prop :=
  ∀ w ∈ windows full items, w.items = [] → ∀ id t, w.seal registered false rts id = some t → t.WF

theorem tombstoneOnlyWF_of_windows
    (h : ((windows full items).all fun w => !w.items.isEmpty) = true) :
    TombstoneOnlyWF full registered items rts := by
  have hne : ∀ w ∈ windows full items, w.items ≠ [] := by simpa using h
  exact fun w hw hnil => absurd hnil (hne w hw)

theorem writeAll_flush (hs : KeySorted items) (hto : TombstoneOnlyWF full registered items rts) :
    ∀ t ∈ (MultiWriter.new tableIds full registered false rts).writeAll items, t.WF := by
  rw [MultiWriter.writeAll_new]
  intro t ht
  obtain ⟨w, hw, i, hseal⟩ := mem_sealFrom ht
  by_cases hne : w.items = []
  · exact hto w hw hne _ t hseal
  · exact (Window.seal_wf hne (List.Pairwise.sublist (windowsFrom_sublist hw) hs) hseal).1

omit [LinearOrder K] [Inhabited V] in
theorem sentinel_mem {s : RangeTombstone K} (h : RangeTombstone.sentinel rts = some s) : s ∈ rts := by
  have hpick : ∀ (rest : List (RangeTombstone K)) (rt : RangeTombstone K),
      rest.foldl (fun a b => if b.seqno < a.seqno ∨ (b.seqno = a.seqno ∧
        bytesLt b.start a.start = true) then b else a) rt ∈ rt :: rest := by
    intro rest
    induction rest with
    | nil => exact fun rt => mem_singleton_self rt
    | cons x rest ih =>
      intro rt
      rw [foldl_cons]
      split_ifs
      · exact mem_cons_of_mem _ (ih x)
      · rcases mem_cons.1 (ih rt) with heq | hmem
        · exact mem_cons.2 (Or.inl heq)
        · exact mem_cons_of_mem _ (mem_cons_of_mem _ hmem)
  cases rts with
  | nil => cases h
  | cons rt rest =>
    cases h
    exact hpick rest rt

/-- The entry that stands in a table of range tombstones alone. -/
def Table.marker (t : Table K V) : Option (InternalValue K V) :=
  (RangeTombstone.sentinel t.rangeTombstones).map fun s => ⟨s.start, s.seqno, .weakTombstone, default⟩

theorem Window.seal_entries (h : w.seal registered clip rts id = some t) :
    t.entries = w.items ∨ t.entries = t.marker.toList := by
  by_cases hw : w.items = []
  · rw [Window.seal_nil hw] at h
    unfold Writer.finishTombstonesOnly at h
    split at h
    case h_2 => cases h
    case h_1 rt rest s _ hsentinel =>
      cases h
      refine Or.inr ?_
      dsimp only at hsentinel
      rw [Table.marker, hsentinel]
      rfl
  · obtain ⟨t, heq, -, hsealed⟩ := w.seal_items hw clip id
    cases heq.symm.trans h
    exact Or.inl hsealed.entries

theorem writeAll_entries (ht : t ∈ (MultiWriter.new tableIds full registered clip rts).writeAll items) :
    (∀ e ∈ t.entries, e ∈ items) ∨ t.entries = t.marker.toList := by
  rw [MultiWriter.writeAll_new] at ht
  obtain ⟨w, hw, i, hseal⟩ := mem_sealFrom ht
  refine (Window.seal_entries hseal).imp_left fun heq e he => ?_
  rw [heq] at he
  exact (windowsFrom_sublist hw).subset he

/-- What a table is made of: entries of the stream, or a marker for one of the range tombstones, and
parts of these. -/
structure Table.MadeOf (items : List (InternalValue K V)) (rts : List (RangeTombstone K))
    (t : Table K V) : Prop where
  entries : ∀ e ∈ t.entries, e ∈ items ∨
    e.valueType = .weakTombstone ∧ ∃ rt ∈ rts, e.userKey = rt.start ∧ e.seqno = rt.seqno
  rangeTombstones : ∀ rt' ∈ t.rangeTombstones, ∃ rt ∈ rts, rt'.seqno = rt.seqno

omit [Inhabited V] in
theorem tombstonesFor_seqno {clipUpper first last : Option K} {rt' : RangeTombstone K}
    (h : rt' ∈ tombstonesFor rts clip clipUpper first last) : ∃ rt ∈ rts, rt'.seqno = rt.seqno := by
  unfold tombstonesFor at h
  split at h
  · split at h
    · obtain ⟨rt, hrt, hcut⟩ := mem_filterMap.1 h
      exact ⟨rt, hrt, RangeTombstone.intersectOpt_seqno hcut⟩
    · obtain ⟨rt, hrt, hcut⟩ := mem_filterMap.1 h
      exact ⟨rt, hrt, RangeTombstone.clipStart_seqno hcut⟩
  · exact ⟨rt', h, rfl⟩

theorem Window.seal_madeOf (h : w.seal registered clip rts id = some t) :
    t.MadeOf w.items rts := by
  by_cases hw : w.items = []
  · rw [Window.seal_nil hw] at h
    unfold Writer.finishTombstonesOnly at h
    split at h
    case h_2 => cases h
    case h_1 rt rest s _ hsentinel =>
      cases h
      refine ⟨fun e he => Or.inr ?_, fun rt hrt => ⟨rt, hrt, rfl⟩⟩
      rw [mem_singleton.1 he]
      exact ⟨rfl, s, sentinel_mem hsentinel, rfl, rfl⟩
  · obtain ⟨t, heq, -, hsealed⟩ := w.seal_items hw clip id
    cases heq.symm.trans h
    exact ⟨fun e he => Or.inl (hsealed.entries ▸ he),
      fun rt hrt => tombstonesFor_seqno (hsealed.rangeTombstones ▸ hrt)⟩

theorem writeAll_madeOf (ht : t ∈ (MultiWriter.new tableIds full registered clip rts).writeAll items) :
    t.MadeOf items rts := by
  rw [MultiWriter.writeAll_new] at ht
  obtain ⟨w, hw, i, hseal⟩ := mem_sealFrom ht
  have hmade := Window.seal_madeOf hseal
  have hsub : w.items.Sublist items := windowsFrom_sublist hw
  exact ⟨fun e he => (hmade.entries e he).imp_left fun h => hsub.subset h, hmade.rangeTombstones⟩

theorem Window.seal_id (h : w.seal registered true rts id = some t) : t.id = id := by
  by_cases hw : w.items = []
  · rw [Window.seal_nil hw] at h
    simp only [Writer.finishTombstonesOnly] at h
    split at h <;> cases h
    rfl
  · obtain ⟨t, heq, hid, -⟩ := w.seal_items hw true id
    cases heq.symm.trans h
    exact hid

theorem writeAll_id (ht : t ∈ (MultiWriter.new tableIds full registered true rts).writeAll items) :
    ∃ i, t.id = tableIds i := by
  rw [MultiWriter.writeAll_new] at ht
  obtain ⟨w, -, i, hseal⟩ := mem_sealFrom ht
  exact ⟨i, Window.seal_id hseal⟩

theorem mem_sealFrom_of_mem (hw : w ∈ ws) :
    ∃ i, ∀ t ∈ w.seal registered clip rts (tableIds i),
      t ∈ sealFrom registered clip rts tableIds n ws := by
  induction ws generalizing n with
  | nil => cases hw
  | cons x ws ih =>
    rcases mem_cons.1 hw with rfl | hw
    · exact ⟨n, fun t ht => mem_append_left _ (mem_toList.2 ht)⟩
    · obtain ⟨i, hi⟩ := ih hw (n := n + 1)
      exact ⟨i, fun t ht => mem_append_right _ (hi t ht)⟩

theorem exists_mem_writeAll {e : InternalValue K V} (he : e ∈ items) :
    ∃ t ∈ (MultiWriter.new tableIds full registered false rts).writeAll items, e ∈ t.entries := by
  have hitems : (windows full items).flatMap (·.items) = items := by
    rw [windows, windowsFrom_items, nil_append]
  rw [← hitems] at he
  obtain ⟨w, hw, hew⟩ := mem_flatMap.1 he
  obtain ⟨i, hi⟩ := mem_sealFrom_of_mem (n := 0) hw
  obtain ⟨t, heq, -, hsealed⟩ := w.seal_items (ne_nil_of_mem hew) false (tableIds i)
  rw [MultiWriter.writeAll_new]
  exact ⟨t, hi t heq, hsealed.entries ▸ hew⟩

end Flush

end LsmTree
