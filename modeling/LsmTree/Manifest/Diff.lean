import LsmTree.Manifest.Version

/-! An edit carries a recovered version forward: the edit from `prior` to `next`, applied to what
recovery holds of `prior`, gives what it should hold of `next`. -/
namespace LsmTree

open Codec List Function

/-- What a recovery has to hold to rebuild the version. -/
structure Recovery.Holds (r : Recovery) (v : TreeVersion) : Prop where
  toVersion : r.toVersion = v
  distinctBlobs : r.blobFileIds.Pairwise fun x y => x.1 ≠ y.1

namespace TreeVersion

variable {v : TreeVersion} {n : ℕ}

section Tables

theorem restrictions_distinct (h : v.WF n) : v.restrictions.Pairwise fun x y => x.1 ≠ y.1 := by
  apply List.Pairwise.filterMap _ _ (pairwise_map.1 h.distinctIds)
  intro t t' hne x hx y hy
  obtain ⟨_, _, rfl⟩ := Option.map_eq_some_iff.1 hx
  obtain ⟨_, _, rfl⟩ := Option.map_eq_some_iff.1 hy
  exact hne

theorem get_restrictions (h : v.WF n) {t : TableHandle} (ht : t ∈ v.tables) :
    (IdMap.ofList v.restrictions).get t.desc.id = t.restrictLowerBound := by
  have hdistinct := restrictions_distinct h
  rw [IdMap.get_ofList hdistinct]
  apply Option.ext
  intro bound
  rw [IdMap.lookup_eq_some hdistinct, restrictions, mem_filterMap]
  constructor
  · rintro ⟨t', ht', hbound⟩
    obtain ⟨bound', hbound', heq⟩ := Option.map_eq_some_iff.1 hbound
    obtain ⟨hid, rfl⟩ := Prod.mk.inj heq
    rwa [inj_on_of_nodup_map h.distinctIds ht' ht hid] at hbound'
  · intro hbound
    exact ⟨t, ht, by rw [hbound]; rfl⟩

theorem levels_restored (h : v.WF n) :
    ((v.levels.map layout).map fun level => level.map fun run => run.map
      fun desc => (⟨desc, (IdMap.ofList v.restrictions).get desc.id⟩ : TableHandle)) =
        v.levels := by
  rw [map_map]
  conv_rhs => rw [← map_id v.levels]
  apply map_congr_left
  intro level hlevel
  rw [comp_apply, layout, map_map]
  conv_rhs => rw [id_eq, ← map_id level]
  apply map_congr_left
  intro run hrun
  rw [comp_apply, map_map]
  conv_rhs => rw [id_eq, ← map_id run]
  apply map_congr_left
  intro t ht
  have hmem : t ∈ v.tables :=
    mem_flatten_of_mem (mem_flatten_of_mem hlevel hrun) ht
  rw [comp_apply, get_restrictions h hmem, id_eq]

end Tables

section BlobFiles

theorem blobRestrictions_distinct (v : TreeVersion) :
    v.blobRestrictions.Pairwise fun x y => x.1 ≠ y.1 :=
  pairwise_map.2 ((v.blobFiles.sorted.imp ne_of_lt).filter _)

theorem get_blobRestrictions {id : U64} {b : BlobFileHandle} (h : v.blobFiles.get id = some b) :
    ((IdMap.ofList v.blobRestrictions).get id).getD 0 = b.liveDataStart := by
  have hmem := IdMap.get_eq_some.1 h
  rw [IdMap.get_ofList v.blobRestrictions_distinct]
  by_cases hpos : 0 < b.liveDataStart.val
  · have hfound : (id, b.liveDataStart) ∈ v.blobRestrictions :=
      mem_map.2 ⟨(id, b), mem_filter.2 ⟨hmem, decide_eq_true hpos⟩, rfl⟩
    rw [(IdMap.lookup_eq_some v.blobRestrictions_distinct).2 hfound, Option.getD_some]
  · have hnone : IdMap.lookup id v.blobRestrictions = none := by
      apply IdMap.lookup_eq_none.2
      rintro x hx rfl
      obtain ⟨y, hy, rfl⟩ := mem_map.1 hx
      obtain ⟨hy, hlive⟩ := mem_filter.1 hy
      have heq := h.symm.trans (IdMap.get_eq_some.2 hy)
      rw [Option.some.inj heq] at hpos
      exact hpos (of_decide_eq_true hlive)
    rw [hnone, Option.getD_none]
    exact Fin.ext (Nat.eq_zero_of_not_pos hpos).symm

theorem blobFiles_restored {l : List (U64 × U128)} (hl : l.Pairwise fun x y => x.1 ≠ y.1)
    (hlookup : ∀ id, IdMap.lookup id l = (v.blobFiles.get id).map (·.checksum)) :
    IdMap.ofList (l.map fun x => (x.1, (⟨x.2, ((IdMap.ofList v.blobRestrictions).get x.1).getD
      0⟩ : BlobFileHandle))) = v.blobFiles := by
  apply IdMap.ext_get
  intro id
  have hdistinct : (l.map fun x => (x.1, (⟨x.2, ((IdMap.ofList v.blobRestrictions).get x.1).getD
      0⟩ : BlobFileHandle))).Pairwise fun x y => x.1 ≠ y.1 := pairwise_map.2 hl
  rw [IdMap.get_ofList hdistinct, IdMap.lookup_map (fun id c =>
    (⟨c, ((IdMap.ofList v.blobRestrictions).get id).getD 0⟩ : BlobFileHandle)),
    hlookup]
  cases h : v.blobFiles.get id with
  | none => rfl
  | some b => simp only [Option.map_some, get_blobRestrictions h]

end BlobFiles

theorem snapshot_holds (h : v.WF n) : v.snapshot.Holds v := by
  have hdistinct : v.snapshot.blobFileIds.Pairwise fun x y => x.1 ≠ y.1 :=
    pairwise_map.2 (v.blobFiles.sorted.imp ne_of_lt)
  constructor
  · have hblobs := blobFiles_restored (v := v) hdistinct fun id =>
      IdMap.lookup_map (fun _ (b : BlobFileHandle) => b.checksum) id v.blobFiles.entries
    have hlevels := levels_restored h
    cases v
    simp only [snapshot, Recovery.toVersion] at hblobs hlevels ⊢
    rw [hblobs, hlevels]
  · exact hdistinct

end TreeVersion

namespace Recovery

section Levels

theorem setLevel_of_lt {tableIds : List (List (List TableDesc))} {cl : ChangedLevel}
    (h : cl.level.val < tableIds.length) :
    setLevel tableIds cl = tableIds.set cl.level.val cl.runs := by
  have hzero : cl.level.val + 1 - tableIds.length = 0 := by omega
  rw [setLevel, hzero, replicate_zero, append_nil]

theorem foldl_setLevel {target : List (List (List TableDesc))} {cls : List ChangedLevel}
    (hcls : ∀ cl ∈ cls, target[cl.level.val]? = some cl.runs)
    {tableIds : List (List (List TableDesc))} (hlen : tableIds.length = target.length)
    (hrest : ∀ i, (∀ cl ∈ cls, cl.level.val ≠ i) → tableIds[i]? = target[i]?) :
    cls.foldl setLevel tableIds = target := by
  induction cls generalizing tableIds with
  | nil =>
    apply ext_getElem?
    intro i
    exact hrest i nofun
  | cons cl cls ih =>
    obtain ⟨hcl, hcls⟩ := forall_mem_cons.1 hcls
    have hlt : cl.level.val < tableIds.length := by
      rw [hlen]
      exact (List.getElem?_eq_some_iff.1 hcl).1
    rw [List.foldl_cons, setLevel_of_lt hlt]
    apply ih hcls
    · rw [length_set, hlen]
    · intro i hi
      by_cases hli : cl.level.val = i
      · rw [← hli, getElem?_set_self hlt, hcl]
      · rw [getElem?_set_ne hli]
        exact hrest i (forall_mem_cons.2 ⟨hli, hi⟩)

end Levels

section Blobs

theorem lookup_putBlobFile (id : U64) (checksum : U128) (l : List (U64 × U128)) (k : U64) :
    IdMap.lookup k (putBlobFile id checksum l) =
      if id = k then some checksum else IdMap.lookup k l := by
  induction l with
  | nil => exact IdMap.lookup_cons k _ []
  | cons x xs ih =>
    rw [putBlobFile]
    by_cases hx : x.1 = id
    · rw [if_pos hx, IdMap.lookup_cons, IdMap.lookup_cons, hx]
      split_ifs <;> rfl
    · rw [if_neg hx, IdMap.lookup_cons, IdMap.lookup_cons, ih]
      by_cases hk : x.1 = k
      · rw [if_pos hk, if_neg fun he => hx (hk.trans he.symm), if_pos hk]
      · rw [if_neg hk, if_neg hk]

variable {id : U64} {checksum : U128} {l : List (U64 × U128)}

theorem mem_putBlobFile {y : U64 × U128} (h : y ∈ putBlobFile id checksum l) :
    y.1 = id ∨ y ∈ l := by
  induction l with
  | nil => exact Or.inl (congrArg Prod.fst (mem_singleton.1 h))
  | cons x xs ih =>
    rw [putBlobFile] at h
    split_ifs at h with hx
    · rcases mem_cons.1 h with rfl | h
      · exact Or.inl rfl
      · exact Or.inr (mem_cons_of_mem _ h)
    · rcases mem_cons.1 h with rfl | h
      · exact Or.inr mem_cons_self
      · exact (ih h).imp_right (mem_cons_of_mem _)

theorem putBlobFile_distinct (h : l.Pairwise fun x y => x.1 ≠ y.1) :
    (putBlobFile id checksum l).Pairwise fun x y => x.1 ≠ y.1 := by
  induction l with
  | nil => exact pairwise_singleton _ _
  | cons x xs ih =>
    obtain ⟨hx, hxs⟩ := pairwise_cons.1 h
    rw [putBlobFile]
    split_ifs with hid
    · exact pairwise_cons.2 ⟨fun y hy => hid ▸ hx y hy, hxs⟩
    · apply pairwise_cons.2
      refine ⟨fun y hy => ?_, ih hxs⟩
      rcases mem_putBlobFile hy with hy | hy
      · exact fun he => hid (he.trans hy)
      · exact hx y hy

theorem foldl_putBlobFile_distinct (added : List AddedBlobFile)
    (h : l.Pairwise fun x y => x.1 ≠ y.1) :
    (added.foldl (fun l b => putBlobFile b.id b.checksum l) l).Pairwise fun x y => x.1 ≠ y.1 := by
  induction added generalizing l with
  | nil => exact h
  | cons b bs ih => exact ih (putBlobFile_distinct h)

theorem lookup_foldl_putBlobFile {target : U64 → Option U128} {added : List AddedBlobFile}
    (hadded : ∀ b ∈ added, target b.id = some b.checksum)
    (hrest : ∀ k, (∀ b ∈ added, b.id ≠ k) → IdMap.lookup k l = target k) (k : U64) :
    IdMap.lookup k (added.foldl (fun l b => putBlobFile b.id b.checksum l) l) = target k := by
  induction added generalizing l with
  | nil => exact hrest k nofun
  | cons b bs ih =>
    obtain ⟨hb, hbs⟩ := forall_mem_cons.1 hadded
    apply ih hbs
    intro k' hk'
    rw [lookup_putBlobFile]
    by_cases hid : b.id = k'
    · rw [if_pos hid, ← hid, hb]
    · rw [if_neg hid]
      exact hrest k' (forall_mem_cons.2 ⟨hid, hk'⟩)

end Blobs

section Apply

variable {r : Recovery} {prior v : TreeVersion} {n : ℕ} {e : VersionEdit}

theorem Holds.tableIds (h : r.Holds prior) : r.tableIds = prior.levels.map TreeVersion.layout := by
  obtain ⟨rfl, -⟩ := h
  simp [Recovery.toVersion, TreeVersion.layout, comp_def]

theorem Holds.lookup_blobFileIds (h : r.Holds prior) (id : U64) :
    IdMap.lookup id r.blobFileIds = (prior.blobFiles.get id).map (·.checksum) := by
  obtain ⟨rfl, hdistinct⟩ := h
  have hdistinct' : (r.blobFileIds.map fun x => (x.1, (⟨x.2, (r.blobRestrictions.get x.1).getD
      0⟩ : BlobFileHandle))).Pairwise fun x y => x.1 ≠ y.1 :=
    pairwise_map.2 hdistinct
  rw [Recovery.toVersion, IdMap.get_ofList hdistinct', IdMap.lookup_map (fun id c =>
    (⟨c, (r.blobRestrictions.get id).getD 0⟩ : BlobFileHandle))]
  cases IdMap.lookup id r.blobFileIds <;> rfl

theorem diff_levels (hprior : prior.levels.length = n) (hv : v.levels.length = n)
    (he : v.diff prior = .ok e) :
    e.changedLevels.foldl setLevel (prior.levels.map TreeVersion.layout) =
      v.levels.map TreeVersion.layout := by
  unfold TreeVersion.diff at he
  split at he
  · cases he
  rename_i hfits
  cases he
  have hmem : ∀ i ∈ v.changedLevels prior, i < n ∧ i % 256 = i := by
    intro i hi
    have hlt : ¬ 256 ≤ i := fun hge => hfits (any_eq_true.2 ⟨i, hi, decide_eq_true hge⟩)
    have hrange := mem_range.1 (mem_of_mem_filter hi)
    rw [hv, hprior, max_self] at hrange
    exact ⟨hrange, Nat.mod_eq_of_lt (not_le.1 hlt)⟩
  have hruns : ∀ (w : TreeVersion) (i : ℕ), w.levels.length = n → i < n →
      (w.levels.map TreeVersion.layout)[i]? = some (w.levelRuns i) := by
    intro w i hw hi
    rw [TreeVersion.levelRuns, getElem?_map, getElem?_eq_getElem (hw ▸ hi)]
    rfl
  apply foldl_setLevel
  · intro cl hcl
    obtain ⟨i, hi, rfl⟩ := mem_map.1 hcl
    obtain ⟨hin, hmod⟩ := hmem i hi
    simp only [Fin.val_ofNat, hmod]
    exact hruns v i hv hin
  · rw [length_map, length_map, hprior, hv]
  · intro i hi
    by_cases hin : i < n
    · rw [hruns prior i hprior hin, hruns v i hv hin]
      by_cases hsame : v.levelRuns i = prior.levelRuns i
      · rw [hsame]
      · have hchanged : i ∈ v.changedLevels prior := by
          apply mem_filter.2
          refine ⟨mem_range.2 ?_, decide_eq_true hsame⟩
          rwa [hv, hprior, max_self]
        exact absurd (hmem i hchanged).2 (hi _ (mem_map_of_mem hchanged))
    · rw [getElem?_eq_none, getElem?_eq_none]
      · rw [length_map, hv]
        exact not_lt.1 hin
      · rw [length_map, hprior]
        exact not_lt.1 hin

theorem diff_blobs
    (h : ∀ id, IdMap.lookup id r.blobFileIds = (prior.blobFiles.get id).map (·.checksum))
    (he : v.diff prior = .ok e) (id : U64) :
    IdMap.lookup id (e.addedBlobFiles.foldl (fun l b => putBlobFile b.id b.checksum l)
      (r.blobFileIds.filter fun x => decide (x.1 ∉ e.removedBlobFileIds))) =
        (v.blobFiles.get id).map (·.checksum) := by
  unfold TreeVersion.diff at he
  split at he
  · cases he
  cases he
  apply lookup_foldl_putBlobFile
  · intro b hb
    obtain ⟨x, hx, rfl⟩ := mem_map.1 hb
    simp only [IdMap.get_eq_some.2 (mem_of_mem_filter hx), Option.map_some]
  · intro k hk
    rw [IdMap.lookup_filter (fun id => decide (id ∉ _)), h]
    cases hv : v.blobFiles.get k with
    | none =>
      -- a file of the prior version is removed, any other was never there
      cases hp : prior.blobFiles.get k with
      | none => simp
      | some b =>
        rw [if_neg]
        · rfl
        · rw [decide_eq_true_eq, not_not]
          exact mem_map.2 ⟨(k, b), mem_filter.2
            ⟨IdMap.get_eq_some.1 hp, by simp only [hv, Option.isNone_none]⟩, rfl⟩
    | some b =>
      rw [if_pos]
      · -- it is not among the added files, so the prior version had it
        by_contra hne
        apply hk ⟨k, b.checksum⟩ _ rfl
        exact mem_map.2 ⟨(k, b), mem_filter.2
          ⟨IdMap.get_eq_some.1 hv, decide_eq_true hne⟩, rfl⟩
      · rw [decide_eq_true_eq]
        intro hmem
        obtain ⟨x, hx, rfl⟩ := mem_map.1 hmem
        have hnone := (mem_filter.1 hx).2
        rw [hv] at hnone
        cases hnone

theorem diff_gcStats (h : r.gcStats = prior.gcStats) (hv : v.gcStats.CountsFit)
    (he : v.diff prior = .ok e) {payload : Bytes} (hpayload : e.encodePayload = .ok payload) :
    (e.gcStats.map FragmentationMap.decode).getD (.ok r.gcStats) = .ok v.gcStats := by
  obtain ⟨_, -, hpayload⟩ := bind_eq_ok.1 hpayload
  obtain ⟨_, -, hpayload⟩ := bind_eq_ok.1 hpayload
  obtain ⟨_, -, hpayload⟩ := bind_eq_ok.1 hpayload
  obtain ⟨_, hbytes, -⟩ := bind_eq_ok.1 hpayload
  obtain ⟨len, hlen, -⟩ := bind_eq_ok.1 hbytes
  have hfits := u32Len_eq_ok hlen
  unfold TreeVersion.diff at he
  split at he
  · cases he
  cases he
  by_cases hsame : v.gcStats = prior.gcStats
  · simp only [if_pos hsame, Option.map_none, Option.getD_none]
    rw [hsame, h]
  · simp only [if_neg hsame, Option.map_some, Option.getD_some] at hfits ⊢
    apply FragmentationMap.decode_encode hv
    have hlt := hfits ▸ len.isLt
    rw [FragmentationMap.encode_length] at hlt
    omega

theorem applyEdit_diff (h : r.Holds prior) (hprior : prior.WF n) (hv : v.WF n)
    (he : v.diff prior = .ok e) {payload : Bytes} (hpayload : e.encodePayload = .ok payload) :
    ∃ r', r.applyEdit e = .ok r' ∧ r'.Holds v := by
  have hlevels := diff_levels hprior.levelCount hv.levelCount he
  have hblobs := diff_blobs h.lookup_blobFileIds he
  have hgc : r.gcStats = prior.gcStats := by
    rw [← h.toVersion]
    rfl
  refine ⟨_, by rw [applyEdit, diff_gcStats hgc hv.countsFit he hpayload]; rfl, ?_⟩
  have hdistinct := foldl_putBlobFile_distinct e.addedBlobFiles
    (h.distinctBlobs.filter fun x => decide (x.1 ∉ e.removedBlobFileIds))
  constructor
  · have hrestored := TreeVersion.blobFiles_restored hdistinct hblobs
    unfold TreeVersion.diff at he
    split at he
    · cases he
    cases he
    have htables := TreeVersion.levels_restored hv
    have hfloor : (if v.retentionFloor = prior.retentionFloor then none
        else some v.retentionFloor).getD r.retentionFloor = v.retentionFloor := by
      by_cases hsame : v.retentionFloor = prior.retentionFloor
      · rw [if_pos hsame, Option.getD_none, hsame, ← h.toVersion]
        rfl
      · rw [if_neg hsame, Option.getD_some]
    rw [← h.tableIds] at hlevels
    simp only [toVersion, hlevels, htables, hrestored, hfloor]
  · exact hdistinct

theorem diff_gcStats_ne_nil (he : v.diff prior = .ok e) : e.gcStats ≠ some [] := by
  unfold TreeVersion.diff at he
  split at he
  · cases he
  cases he
  dsimp only
  split_ifs
  · nofun
  · intro hnil
    have hlen := congrArg List.length (Option.some.inj hnil)
    rw [FragmentationMap.encode_length, length_nil] at hlen
    omega

end Apply

end Recovery

end LsmTree
