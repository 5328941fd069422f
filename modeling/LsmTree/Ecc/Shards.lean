import Mathlib

/-! The parity shards of a block and the recovery of its payload from damaged shards. -/
namespace LsmTree.Shards

open List Nat

abbrev Shard := List UInt8

/-- The Reed-Solomon engine: the shapes it accepts, its parity shards, and what it restores when
the shards declared missing are left out. -/
structure ReedSolomon where
  supports : ℕ → ℕ → ℕ → Bool
  encode : ℕ → List Shard → List Shard
  decode : ℕ → ℕ → List (Option Shard) → Option (ℕ → Option Shard)

def shardBytes (payloadLen dataShards : ℕ) : ℕ :=
  if dataShards = 0 then 0 else ((payloadLen + dataShards - 1) / dataShards + 1) / 2 * 2

def fillDataShard (payload : Shard) (i sb : ℕ) : Shard :=
  let slice := (payload.drop (i * sb)).take sb
  slice ++ List.replicate (sb - slice.length) 0

def carveDataShards (data : Shard) (dataShards sb : ℕ) : List Shard :=
  (List.range dataShards).map fun i => fillDataShard data i sb

def xorInto (acc shard : Shard) : Shard := List.zipWith (· ^^^ ·) acc shard

def encodeXor (payload : Shard) (dataShards sb : ℕ) : Shard :=
  (carveDataShards payload dataShards sb).foldl xorInto (List.replicate sb 0)

def encodeParity (rs : ReedSolomon) (payload : Shard) (dataShards parityShards : ℕ) :
    Option Shard :=
  let sb := shardBytes payload.length dataShards
  if sb = 0 ∨ parityShards = 0 then some []
  else if parityShards = 1 then some (encodeXor payload dataShards sb)
  else if rs.supports dataShards parityShards sb then
    some (rs.encode parityShards (carveDataShards payload dataShards sb)).flatten
  else none

/-- The data intact, then each data shard in turn rebuilt from the parity and the others. -/
def xorRecover (data parity : Shard) (payloadLen dataShards sb : ℕ) (oracle : Shard → Bool) :
    Option Shard :=
  let shards := carveDataShards data dataShards sb
  let rebuilt miss := (shards.eraseIdx miss).foldl xorInto (parity.take sb)
  (shards.flatten.take payloadLen :: (List.range dataShards).map fun miss =>
    (shards.set miss (rebuilt miss)).flatten.take payloadLen).find? oracle

/-- The rightmost index that may still grow does, and those after it follow on. -/
def nextCombination (n : ℕ) : List ℕ → Option (List ℕ)
  | [] => none
  | c :: cs =>
    match nextCombination n cs with
    | some cs => some (c :: cs)
    | none =>
      if c < n - (cs.length + 1) then some ((c + 1) :: List.range' (c + 2) cs.length) else none

def received (missing : List ℕ) (shards : List Shard) : List (Option Shard) :=
  shards.mapIdx fun i s => if i ∈ missing then none else some s

/-- `none` is an error of the engine; shards of the right number and size it never refuses. -/
def tryDecodeOne (rs : ReedSolomon) (shards : List Shard)
    (sb payloadLen dataShards parityShards : ℕ) (missing : List ℕ) : Option (Option Shard) :=
  if rs.supports dataShards parityShards sb then
    some do
      let restored ← rs.decode dataShards parityShards (received missing shards)
      let data ← (List.range dataShards).mapM fun i =>
        if i ∈ missing then restored i else shards[i]?
      return data.flatten.take payloadLen
  else none

def allShards (data parity : Shard) (dataShards parityShards sb : ℕ) : List Shard :=
  carveDataShards data dataShards sb ++
    (List.range parityShards).map fun i => (parity.drop (i * sb)).take sb

/-- The loop over the sets declared missing, in as many rounds as `fuel` allows. -/
def decodeLoop (attempt : List ℕ → Option (Option Shard)) (n : ℕ) (oracle : Shard → Bool) :
    ℕ → List ℕ → Option (Option Shard)
  | 0, _ => none
  | fuel + 1, missing => do
    let candidate ← attempt missing
    if candidate.any oracle then some candidate
    else match nextCombination n missing with
      | some missing => decodeLoop attempt n oracle fuel missing
      | none => some none

def rsRecover (rs : ReedSolomon) (data parity : Shard)
    (payloadLen dataShards parityShards sb : ℕ) (oracle : Shard → Bool) (fuel : ℕ) :
    Option (Option Shard) :=
  let shards := allShards data parity dataShards parityShards sb
  decodeLoop (tryDecodeOne rs shards sb payloadLen dataShards parityShards)
    (dataShards + parityShards) oracle fuel (List.range parityShards)

def tryRecover (rs : ReedSolomon) (data parity : Shard)
    (payloadLen dataShards parityShards : ℕ) (oracle : Shard → Bool) (fuel : ℕ) :
    Option (Option Shard) :=
  let sb := shardBytes payloadLen dataShards
  if sb = 0 ∨ parityShards = 0 ∨ data.length < payloadLen ∨ parity.length < sb * parityShards then
    some none
  else if parityShards = 1 then some (xorRecover data parity payloadLen dataShards sb oracle)
  else rsRecover rs data parity payloadLen dataShards parityShards sb oracle fuel

section Carving

variable {data payload : Shard} {d sb i : ℕ}

theorem le_mul_shardBytes (n : ℕ) (hd : 0 < d) : n ≤ d * shardBytes n d := by
  have hraw := div_add_mod (n + d - 1) d
  have hmod := mod_lt (n + d - 1) hd
  have heven : (n + d - 1) / d ≤ shardBytes n d := by
    rw [shardBytes, if_neg (by omega)]
    omega
  have := mul_le_mul_left d heven
  omega

@[simp] theorem length_fillDataShard : (fillDataShard data i sb).length = sb := by
  simp only [fillDataShard, length_append, length_take, length_replicate]
  omega

@[simp] theorem length_carveDataShards : (carveDataShards data d sb).length = d := by
  simp [carveDataShards]

theorem length_of_mem_carve {s : Shard} (hs : s ∈ carveDataShards data d sb) : s.length = sb := by
  obtain ⟨i, -, rfl⟩ := mem_map.1 hs
  exact length_fillDataShard

theorem carve_succ : carveDataShards data (d + 1) sb =
    fillDataShard data 0 sb :: carveDataShards (data.drop sb) d sb := by
  simp only [carveDataShards, range_succ_eq_map, map_cons, map_map,
    List.cons.injEq, true_and]
  refine map_congr_left fun i _ => ?_
  simp only [Function.comp_apply, fillDataShard, drop_drop]
  rw [succ_mul, add_comm]

/-- Concatenating the carved shards and cutting the padding gives the payload back. -/
theorem flatten_carve (hlen : payload.length ≤ d * sb) :
    (carveDataShards payload d sb).flatten.take payload.length = payload := by
  induction d generalizing payload with
  | zero =>
    obtain rfl : payload = [] := length_eq_zero_iff.1 (by omega)
    rfl
  | succ d ih =>
    rw [succ_mul] at hlen
    rw [carve_succ, flatten_cons, take_append, length_fillDataShard]
    have hrest : (carveDataShards (payload.drop sb) d sb).flatten.take (payload.length - sb) =
        payload.drop sb := by
      rw [← length_drop]
      exact ih (by rw [length_drop]; omega)
    rw [hrest, fillDataShard, Nat.zero_mul, drop_zero, length_take]
    by_cases hshort : payload.length ≤ sb
    · rw [take_of_length_le hshort, take_left, drop_of_length_le hshort,
        append_nil]
    · rw [show sb - min sb payload.length = 0 by omega, replicate_zero, append_nil,
        take_of_length_le (by rw [length_take]; omega), take_append_drop]

/-- The slices of a trailer are the parity shards that it concatenates. -/
theorem slices_flatten {shards : List Shard} (hsb : ∀ s ∈ shards, s.length = sb) :
    ((List.range shards.length).map fun i => (shards.flatten.drop (i * sb)).take sb) = shards := by
  induction shards with
  | nil => rfl
  | cons s shards ih =>
    have hs : s.length = sb := hsb s mem_cons_self
    rw [length_cons, range_succ_eq_map, map_cons, map_map, Nat.zero_mul,
      drop_zero, flatten_cons, take_left' hs]
    congr 1
    refine Eq.trans (map_congr_left fun i _ => ?_) (ih fun x hx => hsb x (.tail _ hx))
    rw [Function.comp_apply, succ_mul, add_comm, ← drop_drop, drop_left' hs]

end Carving

section Xor

instance : RightCommutative xorInto where
  right_comm a b c := by
    refine ext_getElem (by simp only [xorInto, length_zipWith]; omega) fun i _ _ => ?_
    simp only [xorInto, getElem_zipWith, UInt8.xor_assoc]
    exact congrArg _ (UInt8.xor_comm _ _)

variable {a s : Shard} {shards : List Shard} {sb i : ℕ}

theorem xorInto_cancel (h : s.length = a.length) : xorInto (xorInto a s) s = a := by
  refine ext_getElem (by simp [xorInto, h]) fun i _ _ => ?_
  simp [xorInto]

theorem foldl_xorInto_cancel (h : ∀ s ∈ shards, s.length = a.length) :
    (shards ++ shards).foldl xorInto a = a := by
  induction shards with
  | nil => rfl
  | cons s shards ih =>
    -- the second `s` is moved next to the first
    have hmove : (s :: shards ++ s :: shards).Perm (s :: s :: (shards ++ shards)) :=
      perm_middle.cons s
    rw [hmove.foldl_eq a, foldl_cons, foldl_cons,
      xorInto_cancel (h s mem_cons_self)]
    exact ih fun x hx => h x (.tail _ hx)

/-- The parity with all shards but one is that one. -/
theorem foldl_eraseIdx (hi : i < shards.length) (h : ∀ s ∈ shards, s.length = sb) :
    (shards.eraseIdx i).foldl xorInto (shards.foldl xorInto (List.replicate sb 0)) =
      shards[i] := by
  have hlen : shards[i].length = sb := h _ (getElem_mem hi)
  rw [← (getElem_cons_eraseIdx_perm hi).foldl_eq, foldl_cons, ← foldl_append,
    foldl_xorInto_cancel]
  · refine ext_getElem (by simp [xorInto, hlen]) fun i _ _ => ?_
    simp [xorInto]
  · intro s hs
    rw [h s (mem_of_mem_eraseIdx hs)]
    simp [xorInto, hlen]

end Xor

section Combinations

variable {n : ℕ} {a b T : List ℕ}

/-- The combinations that the loop goes through. -/
abbrev Visits (n : ℕ) : List ℕ → List ℕ → Prop :=
  Relation.ReflTransGen fun a b => nextCombination n a = some b

theorem Visits.cons (h : Visits n a b) (c : ℕ) : Visits n (c :: a) (c :: b) :=
  h.lift (c :: ·) fun a b (hab : nextCombination n a = some b) => by
    change nextCombination n (c :: a) = some (c :: b)
    rw [nextCombination, hab]

theorem nextCombination_last {k : ℕ} (hk : k ≤ n) :
    nextCombination n (List.range' (n - k) k) = none := by
  induction k with
  | zero => rfl
  | succ k ih =>
    rw [List.range'_succ, nextCombination, show n - (k + 1) + 1 = n - k by omega, ih (by omega),
      length_range']
    simp

theorem add_length_lt {t : ℕ} (hT : (t :: T).Pairwise (· < ·)) (hn : ∀ i ∈ t :: T, i < n) :
    t + T.length < n := by
  induction T generalizing t with
  | nil => simpa using hn
  | cons u T ih =>
    have htu : t < u := rel_of_pairwise_cons hT mem_cons_self
    have := ih hT.of_cons fun i hi => hn i (.tail _ hi)
    rw [length_cons]
    omega

/-- Every combination above the first one is visited: the tail runs to its last combination
before the head moves. -/
theorem visits_of_pairwise {lo : ℕ} (hT : T.Pairwise (· < ·)) (hlo : ∀ i ∈ T, lo ≤ i)
    (hn : ∀ i ∈ T, i < n) : Visits n (List.range' lo T.length) T := by
  induction hk : T.length generalizing T lo with
  | zero =>
    rw [length_eq_zero_iff.1 hk]
    exact .refl
  | succ k ih =>
    obtain ⟨t, T, rfl⟩ := exists_cons_of_length_eq_add_one hk
    obtain rfl : T.length = k := by simpa using hk
    have hroom := add_length_lt hT hn
    have hmove : ∀ c, lo ≤ c → c ≤ t →
        Visits n (lo :: List.range' (lo + 1) T.length) (c :: List.range' (c + 1) T.length) := by
      intro c hc
      induction c, hc using le_induction with
      | base => exact fun _ => .refl
      | succ c hc ihc =>
        intro hct
        have htail : Visits n (List.range' (c + 1) T.length)
            (List.range' (n - T.length) T.length) :=
          ih (pairwise_lt_range' ..) (by simp; omega) (by simp; omega) (by simp)
        refine (ihc (by omega)).trans ((htail.cons c).tail ?_)
        rw [nextCombination, nextCombination_last (by omega), length_range']
        exact if_pos (by omega)
    rw [List.range'_succ]
    refine (hmove t (hlo t mem_cons_self) le_rfl).trans (Visits.cons ?_ t)
    exact ih hT.of_cons (fun i hi => rel_of_pairwise_cons hT hi)
      (fun i hi => hn i (.tail _ hi)) rfl

variable {attempt : List ℕ → Option (Option Shard)} {payload : Shard}

theorem decodeLoop_of_visits (hok : ∀ missing, (attempt missing).isSome) (hv : Visits n a T)
    (hT : attempt T = some (some payload)) :
    ∃ N, ∀ fuel ≥ N, decodeLoop attempt n (· == payload) fuel a = some (some payload) := by
  induction hv using Relation.ReflTransGen.head_induction_on with
  | refl =>
    refine ⟨1, fun fuel hfuel => ?_⟩
    obtain ⟨fuel, rfl⟩ := Nat.exists_eq_add_of_le' hfuel
    simp [decodeLoop, hT]
  | @head a b hab _ ih =>
    obtain ⟨N, hN⟩ := ih
    refine ⟨N + 1, fun fuel hfuel => ?_⟩
    obtain ⟨fuel, rfl⟩ := Nat.exists_eq_add_of_le' (Nat.le_of_add_left_le hfuel)
    obtain ⟨candidate, hcandidate⟩ := Option.isSome_iff_exists.1 (hok a)
    rw [decodeLoop, hcandidate, Option.bind_eq_bind, Option.bind_some]
    split_ifs with haccept
    · cases candidate with
      | none => cases haccept
      | some c => rw [eq_of_beq haccept]
    · rw [hab]
      exact hN fuel (by omega)

end Combinations

section Recovery

variable {rs : ReedSolomon} {d p sb : ℕ} {payload data parity parity' : Shard}
  {damaged : Finset ℕ} {l : List Shard}

/-- On the shapes it accepts the engine restores every choice of missing shards when the others are
intact. -/
def ReedSolomon.Restores (rs : ReedSolomon) (d p : ℕ) : Prop :=
  ∀ sb, rs.supports d p sb = true →
    ∀ data : List Shard, data.length = d → (∀ s ∈ data, s.length = sb) →
    (rs.encode p data).length = p ∧ (∀ s ∈ rs.encode p data, s.length = sb) ∧
    ∀ missing : List ℕ, missing.Nodup → missing.length = p → (∀ i ∈ missing, i < d + p) →
      ∃ restored, rs.decode d p (received missing (data ++ rs.encode p data)) = some restored ∧
        ∀ i ∈ missing, i < d → restored i = data[i]?

theorem find?_payload (h : payload ∈ l) : l.find? (· == payload) = some payload := by
  cases hfind : l.find? (· == payload) with
  | none => simpa using find?_eq_none.1 hfind payload h
  | some c =>
    exact congrArg some (eq_of_beq (find?_some (p := (· == payload)) hfind))

theorem getElem?_allShards {i : ℕ} (hi : i < d) :
    (allShards data parity d p sb)[i]? = (carveDataShards data d sb)[i]? :=
  getElem?_append_left (by simpa)

theorem length_foldl_xorInto {a : Shard} (h : ∀ s ∈ l, s.length = a.length) :
    (l.foldl xorInto a).length = a.length := by
  induction l generalizing a with
  | nil => rfl
  | cons s l ih =>
    have hs : (xorInto a s).length = a.length := by simp [xorInto, h s mem_cons_self]
    rw [foldl_cons, ih fun x hx => by rw [hs, h x (.tail _ hx)], hs]

theorem length_encodeXor : (encodeXor payload d sb).length = sb := by
  rw [encodeXor, length_foldl_xorInto fun s hs => by simp [length_of_mem_carve hs]]
  simp

theorem xorRecover_damaged (hlen : payload.length ≤ d * sb) (hcard : damaged.card ≤ 1)
    (hintact : ∀ i ∉ damaged, (allShards data parity' d 1 sb)[i]? =
      (allShards payload (encodeXor payload d sb) d 1 sb)[i]?) :
    xorRecover data parity' payload.length d sb (· == payload) = some payload := by
  have hdata : ∀ i, (i < d → i ∉ damaged) →
      (carveDataShards data d sb)[i]? = (carveDataShards payload d sb)[i]? := fun i hnot => by
    by_cases hi : i < d
    · simpa only [getElem?_allShards hi] using hintact i (hnot hi)
    · rw [getElem?_eq_none (by simpa using hi), getElem?_eq_none (by simpa using hi)]
  refine find?_payload ?_
  by_cases hdamaged : ∃ m ∈ damaged, m < d
  · obtain ⟨m, hm, hmd⟩ := hdamaged
    -- the parity is intact, and so is every other data shard
    have hother : ∀ i, i ≠ m → i ∉ damaged := fun i hne hi =>
      hne (Finset.card_le_one.1 hcard i hi m hm)
    have hset : carveDataShards data d sb =
        (carveDataShards payload d sb).set m (fillDataShard data m sb) := by
      refine ext_getElem? fun i => ?_
      by_cases him : m = i
      · subst him
        simp [carveDataShards, hmd]
      · rw [getElem?_set_ne him, hdata i fun _ => hother i (Ne.symm him)]
    have htrailer : parity'.take sb = encodeXor payload d sb := by
      have hd := hintact d (hother d (by omega))
      simpa [allShards, take_of_length_le length_encodeXor.le] using hd
    refine .tail _ (mem_map.2 ⟨m, mem_range.2 hmd, ?_⟩)
    dsimp only
    rw [hset, eraseIdx_set_eq, set_set, htrailer, encodeXor,
      foldl_eraseIdx (by simpa) fun s hs => length_of_mem_carve hs, set_getElem_self,
      flatten_carve hlen]
  · have hsame : carveDataShards data d sb = carveDataShards payload d sb :=
      ext_getElem? fun i => hdata i fun hi h => hdamaged ⟨i, h, hi⟩
    rw [hsame, flatten_carve hlen]
    exact mem_cons_self

theorem mapM_eq_map {f : ℕ → Option Shard} {g : ℕ → Shard} {is : List ℕ}
    (h : ∀ i ∈ is, f i = some (g i)) : is.mapM f = some (is.map g) := by
  induction is with
  | nil => rfl
  | cons i is ih =>
    rw [mapM_cons, h i mem_cons_self, ih fun x hx => h x (.tail _ hx)]
    rfl

theorem tryDecodeOne_intact {shards shards' : List Shard} {missing : List ℕ}
    (hrs : rs.Restores d p) (hsup : rs.supports d p sb) (hlen : payload.length ≤ d * sb)
    (hshards : shards = carveDataShards payload d sb ++ rs.encode p (carveDataShards payload d sb))
    (hnodup : missing.Nodup) (hp : missing.length = p) (hn : ∀ i ∈ missing, i < d + p)
    (hlength : shards'.length = shards.length)
    (hintact : ∀ i ∉ missing, shards'[i]? = shards[i]?) :
    tryDecodeOne rs shards' sb payload.length d p missing = some (some payload) := by
  obtain ⟨-, -, hdecode⟩ := hrs sb hsup (carveDataShards payload d sb) length_carveDataShards
    fun s hs => length_of_mem_carve hs
  obtain ⟨restored, hrestored, hmissing⟩ := hdecode missing hnodup hp hn
  have hreceived : received missing shards' = received missing shards := by
    refine ext_getElem (by simpa [received]) fun i hi hi' => ?_
    simp only [received, getElem_mapIdx]
    split_ifs with hmem
    · rfl
    · have := hintact i hmem
      rwa [getElem?_eq_getElem, getElem?_eq_getElem] at this
  have hshard : ∀ i ∈ List.range d, (if i ∈ missing then restored i else shards'[i]?) =
      some (fillDataShard payload i sb) := by
    intro i hi
    have hcarve : (carveDataShards payload d sb)[i]? = some (fillDataShard payload i sb) := by
      simp [carveDataShards, mem_range.1 hi]
    split_ifs with hmem
    · rw [hmissing i hmem (mem_range.1 hi), hcarve]
    · rw [hintact i hmem, hshards, getElem?_append_left (by simpa using hi), hcarve]
  have hflatten : ((List.range d).map fun i => fillDataShard payload i sb).flatten.take
      payload.length = payload := flatten_carve hlen
  simp only [tryDecodeOne, if_pos hsup, hreceived, hshards ▸ hrestored, mapM_eq_map hshard,
    Option.bind_eq_bind, Option.bind_some, hflatten, Option.pure_def]

theorem rsRecover_damaged (hrs : rs.Restores d p) (hsup : rs.supports d p sb)
    (hlen : payload.length ≤ d * sb) (hcard : damaged.card ≤ p) (hsub : ∀ i ∈ damaged, i < d + p)
    (hintact : ∀ i ∉ damaged, (allShards data parity' d p sb)[i]? =
      (carveDataShards payload d sb ++ rs.encode p (carveDataShards payload d sb))[i]?) :
    ∃ N, ∀ fuel ≥ N,
      rsRecover rs data parity' payload.length d p sb (· == payload) fuel =
        some (some payload) := by
  have hencoded := (hrs sb hsup (carveDataShards payload d sb) length_carveDataShards
    fun s hs => length_of_mem_carve hs).1
  obtain ⟨T, hdamaged, hT, hTcard⟩ := Finset.exists_subsuperset_card_eq
    (fun i hi => Finset.mem_range.2 (hsub i hi)) hcard (by rw [Finset.card_range]; omega)
  have hrange : ∀ i ∈ T.sort, i < d + p := fun i hi =>
    Finset.mem_range.1 (hT ((Finset.mem_sort _).1 hi))
  have hlength : T.sort.length = p := by rw [Finset.length_sort, hTcard]
  have hvisits := visits_of_pairwise (Finset.sortedLT_sort T).pairwise (fun i _ => i.zero_le) hrange
  rw [hlength, ← range_eq_range'] at hvisits
  refine decodeLoop_of_visits (fun missing => by rw [tryDecodeOne, if_pos hsup]; rfl) hvisits ?_
  refine tryDecodeOne_intact hrs hsup hlen rfl (Finset.sort_nodup ..) hlength hrange ?_ ?_
  · simp [allShards, hencoded]
  · exact fun i hi => hintact i fun h => hi ((Finset.mem_sort _).2 (hdamaged h))

/-- Damage to at most as many shards as there are parity shards is repaired. -/
theorem tryRecover_damaged (hpayload : payload ≠ []) (hd : 0 < d) (hp : 0 < p)
    (hrs : 2 ≤ p → rs.Restores d p) (henc : encodeParity rs payload d p = some parity)
    (hdata : data.length = payload.length) (hparity : parity'.length = parity.length)
    (hcard : damaged.card ≤ p) (hsub : ∀ i ∈ damaged, i < d + p)
    (hintact : ∀ i ∉ damaged, (allShards data parity' d p (shardBytes payload.length d))[i]? =
      (allShards payload parity d p (shardBytes payload.length d))[i]?) :
    ∃ N, ∀ fuel ≥ N,
      tryRecover rs data parity' payload.length d p (· == payload) fuel = some (some payload) := by
  have hlen := le_mul_shardBytes payload.length hd
  have hsb : shardBytes payload.length d ≠ 0 := fun h0 => by
    rw [h0, Nat.mul_zero, Nat.le_zero, length_eq_zero_iff] at hlen
    exact hpayload hlen
  simp only [tryRecover, encodeParity, hsb, hp.ne', hdata, lt_irrefl, false_or, if_false]
    at henc ⊢
  generalize shardBytes payload.length d = sb at *
  by_cases hone : p = 1
  · subst hone
    obtain rfl : encodeXor payload d sb = parity := by simpa using henc
    rw [length_encodeXor] at hparity
    refine ⟨0, fun fuel _ => ?_⟩
    rw [if_neg (by omega), if_pos rfl, xorRecover_damaged hlen hcard hintact]
  · rw [if_neg hone] at henc
    split_ifs at henc with hsup
    obtain rfl := Option.some.inj henc
    obtain ⟨hcount, hsize, -⟩ := hrs (by omega) sb hsup (carveDataShards payload d sb)
      length_carveDataShards fun s hs => length_of_mem_carve hs
    have hslices := slices_flatten hsize
    rw [hcount] at hslices
    have hlength : (rs.encode p (carveDataShards payload d sb)).flatten.length = sb * p := by
      rw [length_flatten, map_congr_left hsize, map_const', hcount,
        sum_replicate_nat, mul_comm]
    obtain ⟨N, hN⟩ := rsRecover_damaged (hrs (by omega)) hsup hlen hcard hsub fun i hi => by
      rw [hintact i hi, allShards, hslices]
    refine ⟨N, fun fuel hfuel => ?_⟩
    rw [if_neg (by omega), if_neg hone, hN fuel hfuel]

/-- Any two shards of a code with two data and two parity shards of two bytes each: the parity is the
sum, and the sum with the second data shard turned by the matrix (0 1; 1 1). -/
def twoOfFourSolve : List (Option Shard) → Option (List Shard)
  | [none, none, some [u, v], some [u', v']] =>
    some [[u - (v' - v), v - (u' - u + (v' - v))], [v' - v, u' - u + (v' - v)]]
  | [none, some [c, d], some [u, v], none] => some [[u - c, v - d], [c, d]]
  | [none, some [c, d], none, some [u, v]] => some [[u - d, v - (c + d)], [c, d]]
  | [some [a, b], none, some [u, v], none] => some [[a, b], [u - a, v - b]]
  | [some [a, b], none, none, some [u, v]] => some [[a, b], [v - b - (u - a), u - a]]
  | [some s, some t, none, none] => some [s, t]
  | _ => none

def twoOfFour : ReedSolomon where
  supports d p sb := d == 2 && p == 2 && sb == 2
  encode _ data :=
    match data with
    | [[a, b], [c, d]] => [[a + c, b + d], [a + d, b + (c + d)]]
    | _ => []
  decode _ _ shards := (twoOfFourSolve shards).map fun data i => data[i]?

theorem twoOfFour_restores : twoOfFour.Restores 2 2 := by
  intro sb hsup data hdata hsb
  obtain rfl : sb = 2 := by simpa [twoOfFour] using hsup
  obtain ⟨s, t, rfl⟩ := length_eq_two.1 hdata
  obtain ⟨a, b, rfl⟩ := length_eq_two.1 (hsb s (by simp))
  obtain ⟨c, d, rfl⟩ := length_eq_two.1 (hsb t (by simp))
  refine ⟨rfl, by simp [twoOfFour], fun missing hnodup hlen hn => ?_⟩
  obtain ⟨i, j, rfl⟩ := length_eq_two.1 hlen
  have hi : i < 4 := hn i (by simp)
  have hj : j < 4 := hn j (by simp)
  have hne : i ≠ j := by simpa using hnodup
  -- two of four shards are missing, in either order
  interval_cases i <;> interval_cases j <;> first
    | exact absurd rfl hne
    | refine ⟨_, rfl, ?_⟩
      simp
      try grind

/-- A data shard and a parity shard are damaged. -/
theorem twoOfFour_damaged : ∃ N, ∀ fuel ≥ N,
    tryRecover twoOfFour [9, 9, 3] [4, 2, 0, 0] 3 2 2 (· == [1, 2, 3]) fuel = some (some [1, 2, 3]) := by
  have hintact : ∀ i ∉ ({0, 3} : Finset ℕ),
      (allShards [9, 9, 3] [4, 2, 0, 0] 2 2 2)[i]? = (allShards [1, 2, 3] [4, 2, 1, 5] 2 2 2)[i]?
    | 0, h | 3, h => absurd h (by decide)
    | 1, _ | 2, _ | _ + 4, _ => rfl
  exact @tryRecover_damaged twoOfFour 2 2 [1, 2, 3] [9, 9, 3] [4, 2, 1, 5] [4, 2, 0, 0] {0, 3}
    (by decide) two_pos two_pos (fun _ => twoOfFour_restores) rfl rfl rfl (by decide) (by decide)
    hintact

/-- An empty payload, no data shards and no parity shards each give up, with nothing damaged. -/
theorem tryRecover_degenerate :
    encodeParity twoOfFour [] 1 1 = some [] ∧
      tryRecover twoOfFour [] [] 0 1 1 (· == []) 1 = some none ∧
      encodeParity twoOfFour [7] 0 1 = some [] ∧
      tryRecover twoOfFour [7] [] 1 0 1 (· == [7]) 1 = some none ∧
      encodeParity twoOfFour [7] 1 0 = some [] ∧
      tryRecover twoOfFour [7] [] 1 1 0 (· == [7]) 1 = some none := by
  decide

end Recovery

end LsmTree.Shards
