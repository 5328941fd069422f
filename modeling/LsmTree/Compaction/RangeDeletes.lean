import LsmTree.Compaction.SubCompactions

/-! What a merge compaction does to range deletes of keys outside its inputs. -/
namespace LsmTree

open List

variable {K V : Type*} [LinearOrder K]

namespace Version

def Deletes (v : Version (Table K V)) (e : InternalValue K V) (R : ℕ) : Prop :=
  ∃ rt ∈ v.rangeTombstones, rt.shouldSuppress e.userKey e.seqno R = true

instance (v : Version (Table K V)) (e : InternalValue K V) (R : ℕ) : Decidable (v.Deletes e R) :=
  inferInstanceAs (Decidable (∃ rt ∈ _, _))

/-- The newest entry of the key among the tables that the snapshot sees. -/
structure VisibleEntry (v : Version (Table K V)) (k : K) (R : ℕ) (e : InternalValue K V) :
    Prop where
  stored : ∃ t ∈ v.tables, e ∈ t.entries
  key : e.userKey = k
  visible : e.seqno < R
  newest : ∀ t ∈ v.tables, ∀ e' ∈ t.entries, e'.userKey = k → e'.seqno < R → e'.seqno ≤ e.seqno

/-- A key of a table that the compaction does not read, deleted at the snapshot before the
install: `e` is the entry the delete hides. -/
structure DeletedOutside (v : Version (Table K V)) (inputs : List ℕ) (watermark : ℕ) (k : K)
    (R : ℕ) (e : InternalValue K V) : Prop where
  held : ∃ t ∈ v.tables, t.id ∉ inputs ∧ ∃ e' ∈ t.entries, e'.userKey = k
  snapshot : watermark ≤ R
  entry : v.VisibleEntry k R e
  deleted : v.Deletes e R

/-- A table that the compaction does not read hides `e`. -/
def DeletesOutside (v : Version (Table K V)) (inputs : List ℕ) (e : InternalValue K V) (R : ℕ) :
    Prop :=
  ∃ t ∈ v.tables, t.id ∉ inputs ∧
    ∃ rt ∈ t.rangeTombstones, rt.shouldSuppress e.userKey e.seqno R = true

/-- Installing `v'` over `v` un-deletes no key of a table outside the inputs. -/
def KeepsDeletes (v v' : Version (Table K V)) (inputs : List ℕ) (watermark : ℕ) : Prop :=
  ∀ k R e, v.DeletedOutside inputs watermark k R e → v'.Deletes e R

omit [LinearOrder K] in
theorem mem_rangeTombstones {v : Version (Table K V)} {rt : RangeTombstone K} :
    rt ∈ v.rangeTombstones ↔ ∃ t ∈ v.tables, rt ∈ t.rangeTombstones := List.mem_flatMap

end Version

namespace StreamConfig

variable {c : StreamConfig K V}

/-- The newest entry goes out, as it is or merged. -/
theorem run_ne_nil {head : InternalValue K V} {older : List (InternalValue K V)}
    (hlive : head.isTombstone = false)
    (hcov : c.coveredByAppliedTombstone head.userKey head.seqno = false) :
    c.run [] (head :: older) ≠ [] := by
  have hyields := c.resolveWithOperator_yields head older
  have hty : head.valueType ≠ .tombstone ∧ head.valueType ≠ .weakTombstone := by
    constructor <;> intro h <;> simp [InternalValue.isTombstone, ValueType.isTombstone, h] at hlive
  have hout : (c.turn head [] older).out.isSome = true := by
    cases older with
    | nil =>
      simp only [turn, turnLast, hlive, Bool.false_and, Bool.false_eq_true, if_false]
      split_ifs <;> simp [collapse, emit, hyields.userKey, hyields.seqno, hcov]
    | cons next older =>
      simp only [turn, turnLast, turnShadowing, hlive, hty, Bool.false_and, Bool.false_eq_true,
        false_and, if_false]
      split_ifs <;> simp [collapse, emit, hyields.userKey, hyields.seqno, hcov]
  obtain ⟨e, he⟩ := Option.isSome_iff_exists.1 hout
  simp [run_input, he]

end StreamConfig

section Windows

variable [RawKey K] {full : ℕ → List (InternalValue K V) → Bool} {n : ℕ} {key : Option K} {k : K}
  {current items : List (InternalValue K V)}

/-- The windows lie side by side. -/
theorem windowsFrom_covers (hfirst : ∀ e ∈ (current ++ items).head?, e.userKey ≤ k)
    (hlast : ∀ e ∈ (current ++ items).getLast?, ∀ m ∈ upperBoundExclusive e.userKey, k < m) :
    ∃ w ∈ windowsFrom full n current key items, w.Covers List.length k := by
  induction items generalizing n current key with
  | nil =>
    rw [append_nil] at hfirst hlast
    refine ⟨_, mem_singleton_self _, ?_⟩
    unfold Window.Covers
    simp only [take_length, Option.none_or]
    split
    case h_1 first last hf hl => exact ⟨hfirst first hf, hlast last hl⟩
    case h_2 => trivial
  | cons item items ih =>
    rw [windowsFrom]
    split
    case isTrue =>
      by_cases hk : k < item.userKey
      · refine ⟨_, mem_cons_self, ?_⟩
        unfold Window.Covers
        simp only [take_length, Option.some_or]
        split
        case h_1 first last hf hl =>
          exact ⟨hfirst first (by simp [head?_append, hf]), by simpa using hk⟩
        case h_2 => trivial
      · obtain ⟨w, hw, hcov⟩ := @ih (n + 1) (some item.userKey) [item] (by simpa using hk)
          fun e he => hlast e (by simpa [getLast?_append] using he)
        exact ⟨w, mem_cons_of_mem _ hw, hcov⟩
    case isFalse =>
      exact ih (by simpa using hfirst) (by simpa using hlast)

end Windows

namespace CompactionPayload

variable (p : CompactionPayload K V) (v : Version (Table K V))

/-- The newest row that the inputs hold for `k` is no delete, and no range delete takes it. -/
def Live (k : K) : Prop :=
  ∃ row ∈ (v.keyRows p.tableIds (fun _ _ => false) k).head?, row.1.isTombstone = false ∧
    (p.streamConfig v).coveredByAppliedTombstone row.1.userKey row.1.seqno = false

instance (k : K) : Decidable (p.Live v k) := inferInstanceAs (Decidable (∃ row ∈ _, _))

variable {p v} {readers : List (List (InternalValue K V))} (hnd : p.tableIds.Nodup)
  (hall : ∀ id ∈ p.tableIds, ∃ t ∈ v.tables, t.id = id)
  (hsorted : ∀ run ∈ v.levels.flatten, (run.flatMap (·.entries)).Pairwise fun a b => a.le b = true)
  (hserial : v.compactionReaders p.tableIds = some readers)
include hnd hall hsorted hserial

theorem Live.written {k : K} (h : p.Live v k) : ∃ e ∈ p.output v readers, e.userKey = k := by
  obtain ⟨row, hhead, hlive, hcov⟩ := h
  obtain ⟨rows, hrows⟩ := head?_eq_some_iff.1 hhead
  have hfilter := serial_output_filter hnd hall hsorted hserial k
  rw [keyOutput_all hsorted k fun _ _ => false, hrows, map_cons] at hfilter
  have hne : (p.output v readers).filter (fun e => decide (e.userKey = k)) ≠ [] := by
    rw [hfilter]
    unfold zeroSeqnos
    split <;> simpa [StreamConfig.compactionStream] using StreamConfig.run_ne_nil hlive hcov
  obtain ⟨e, he⟩ := exists_mem_of_ne_nil _ hne
  exact ⟨e, (mem_filter.1 he).1, of_decide_eq_true (mem_filter.1 he).2⟩

theorem Live.covers [RawKey K] {full : ℕ → List (InternalValue K V) → Bool} {lo hi k : K}
    (hupper : ∀ t ∈ v.tables, t.id ∈ p.tableIds → ∀ e ∈ t.entries,
      ∀ m ∈ upperBoundExclusive e.userKey, e.userKey < m)
    (hlo : p.Live v lo) (hhi : p.Live v hi) (hle : lo ≤ k) (hge : k ≤ hi) :
    ∃ w ∈ windows full (p.output v readers), w.Covers List.length k := by
  have hs := serial_output_sorted hnd hall hsorted hserial
  obtain ⟨a, ha, rfl⟩ := hlo.written hnd hall hsorted hserial
  obtain ⟨b, hb, rfl⟩ := hhi.written hnd hall hsorted hserial
  refine windowsFrom_covers (fun e he => ?_) fun e he m hm => ?_
  · obtain ⟨rest, hcons⟩ := head?_eq_some_iff.1 he
    rw [nil_append] at hcons
    rw [hcons] at ha hs
    rcases mem_cons.1 ha with rfl | ha
    · exact hle
    · exact ((pairwise_cons.1 hs).1 a ha).trans hle
  · rw [nil_append] at he
    obtain ⟨r, hr, f, hf, hkey⟩ := output_key_mem (mem_of_getLast? he)
    obtain ⟨t, ht, hid, hft⟩ := Version.compactionReaders_inputs hnd hall hserial r hr f hf
    rw [← hkey] at hm
    calc k ≤ b.userKey := hge
      _ ≤ e.userKey := hs.le_getLast he hb
      _ = f.userKey := hkey.symm
      _ < m := hupper t ht hid f hft m hm

end CompactionPayload

section Install

variable [RawKey K] [Inhabited V] {v v' : Version (Table K V)} {p : CompactionPayload K V}

end Install

section Example

def compactTop : CompactionPayload (List Byte) ℕ where
  tableIds := [1]
  destLevel := 1
  mvccGcWatermark := 0
  mergeOperator := none
  compactionThreads := 1
  parallelEligible := false
  outputFull := fun _ _ _ => false
  newTableIds := fun _ n => n + 3

/-- `[a, z)` is deleted in a table of L0 with the given entries, above a table that holds `b`. -/
def deletedAbove (entries : List (InternalValue (List Byte) ℕ)) :
    Version (Table (List Byte) ℕ) :=
  ⟨[[[⟨1, ⟨[97], [122]⟩, entries, [⟨[97], [122], 10⟩]⟩]], [],
    [[⟨2, ⟨[98], [98]⟩, [⟨[98], 3, .value, 5⟩], []⟩]]]⟩

end Example

end LsmTree
