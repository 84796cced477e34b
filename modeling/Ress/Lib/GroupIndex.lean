/-
Indexes that group the entries of a store by a key. General library: nothing here names a program.

A store maps identifiers to values, and every value has a key. A group index maps a key to the set of the identifiers
whose value has it.

- `Indexes key S store index`: the index is exact for the keys in `S`, holds no other key, and has no empty set. With
  `S = Set.univ` it is exact altogether; a loop that takes whole groups out of the index goes through smaller `S`.
- `eraseFrom`: take an identifier out of the group of a key, and the key with its last identifier.
- `Indexes.add`, `Indexes.remove`: an entry is stored or removed, with its identifier in the index.
- `Indexes.dropKey`, `Indexes.restore`: a whole group goes; once the store has no value with its key, the index is exact
  for the key again.
-/
import Ress.Lib.FiniteMap

namespace GroupIndex

variable {ι K V : Type} [DecidableEq ι] [DecidableEq K]

/-- the group of a key -/
def group (index : FMap K (Finset ι)) (k : K) : Finset ι := (index.get k).getD ∅

/-- take an identifier out of the group of a key, and the key with its last identifier -/
def eraseFrom (index : FMap K (Finset ι)) (k : K) (i : ι) : FMap K (Finset ι) :=
  match index.get k with
  | some entry => if entry.erase i = ∅ then index.del k else index.set k (entry.erase i)
  | none => index

/-- the index groups the store by `key`: exactly for the keys in `S`, and without any other key or empty group -/
structure Indexes (key : V → K) (S : Set K) (store : FMap ι V) (index : FMap K (Finset ι)) : Prop where
  exact : ∀ k ∈ S, ∀ i, i ∈ group index k ↔ ∃ v, store.get i = some v ∧ key v = k
  outside : ∀ k ∉ S, index.get k = none
  noEmpty : ∀ k, index.get k ≠ some ∅

variable {key : V → K} {S : Set K} {store : FMap ι V} {index : FMap K (Finset ι)}

omit [DecidableEq ι] in
theorem group_of_get {k : K} {s : Finset ι} (h : index.get k = some s) : group index k = s := by simp [group, h]

theorem group_eraseFrom (index : FMap K (Finset ι)) (k k' : K) (i : ι) :
    group (eraseFrom index k i) k' = if k' = k then (group index k).erase i else group index k' := by
  simp only [eraseFrom, group]
  cases hg : index.get k with
  | none =>
    simp only
    split_ifs with hk
    · rw [hk, hg]; simp
    · rfl
  | some entry =>
    simp only [Option.getD_some]
    split_ifs with he hk hk
    · rw [hk, FMap.get_del_self, he]; rfl
    · rw [FMap.get_del_ne _ hk]
    · rw [hk, FMap.get_set_self]; rfl
    · rw [FMap.get_set_ne _ _ hk]

theorem eraseFrom_of_none {k : K} (h : index.get k = none) (i : ι) : eraseFrom index k i = index := by
  simp [eraseFrom, h]

/-- taking an identifier out a second time changes nothing -/
theorem eraseFrom_idem (index : FMap K (Finset ι)) (k : K) (i : ι) :
    eraseFrom (eraseFrom index k i) k i = eraseFrom index k i := by
  cases hg : index.get k with
  | none => rw [eraseFrom_of_none hg, eraseFrom_of_none hg]
  | some entry =>
    by_cases he : entry.erase i = ∅
    · have hdel : eraseFrom index k i = index.del k := by simp only [eraseFrom, hg, if_pos he]
      rw [hdel, eraseFrom_of_none (FMap.get_del_self _ _)]
    · have hset : eraseFrom index k i = index.set k (entry.erase i) := by simp only [eraseFrom, hg, if_neg he]
      rw [hset]
      apply FMap.ext
      intro k'
      simp only [eraseFrom, FMap.get_set_self, Finset.erase_idem, if_neg he, FMap.get_set]
      split_ifs <;> rfl

/-- taking an identifier out makes no new key, and no group larger -/
theorem eraseFrom_sub {k k' : K} {i : ι} {s : Finset ι} (h : (eraseFrom index k i).get k' = some s) :
    ∃ s', index.get k' = some s' ∧ s ⊆ s' := by
  simp only [eraseFrom] at h
  cases hg : index.get k with
  | none =>
    rw [hg] at h
    exact ⟨s, h, subset_rfl⟩
  | some entry =>
    rw [hg] at h
    simp only at h
    split_ifs at h with he
    · exact ⟨s, (FMap.get_del_some h).2, subset_rfl⟩
    · rw [FMap.get_set] at h
      split_ifs at h with hk
      · cases h
        exact ⟨entry, hk ▸ hg, Finset.erase_subset _ _⟩
      · exact ⟨s, h, subset_rfl⟩

/-- taking an identifier out leaves no empty group -/
theorem eraseFrom_noEmpty (hempty : ∀ k, index.get k ≠ some ∅) (k k' : K) (i : ι) :
    (eraseFrom index k i).get k' ≠ some ∅ := by
  simp only [eraseFrom]
  cases hg : index.get k with
  | none => exact hempty k'
  | some entry =>
    simp only
    split_ifs with he
    · exact fun h => hempty k' (FMap.get_del_some h).2
    · rw [FMap.get_set]
      split_ifs with hk
      · exact fun h => he (Option.some.inj h)
      · exact hempty k'

/-- an exact index, by its entries -/
theorem Indexes.get_eq_some (h : Indexes key Set.univ store index) (k : K) (s : Finset ι) :
    index.get k = some s ↔ s ≠ ∅ ∧ ∀ i, i ∈ s ↔ ∃ v, store.get i = some v ∧ key v = k := by
  refine ⟨fun hs => ⟨fun he => h.noEmpty k (he ▸ hs), fun i => ?_⟩, ?_⟩
  · rw [← h.exact k (Set.mem_univ k) i, group_of_get hs]
  · rintro ⟨hne, hs⟩
    have hgroup : group index k = s := by
      ext i
      rw [h.exact k (Set.mem_univ k) i, hs i]
    cases hg : index.get k with
    | none => rw [← hgroup] at hne; simp [group, hg] at hne
    | some s' => rw [group_of_get hg] at hgroup; rw [hgroup]

theorem Indexes.empty (key : V → K) : Indexes key Set.univ (∅ : FMap ι V) ∅ :=
  ⟨fun k _ i => by simp [group], fun k hk => absurd (Set.mem_univ k) hk, fun k => by simp⟩

/-- **An entry is stored.** An identifier that is there already keeps its key. -/
theorem Indexes.add (h : Indexes key S store index) (i : ι) (v : V) (hS : key v ∈ S)
    (hsame : ∀ v', store.get i = some v' → key v' = key v) :
    Indexes key S (store.set i v) (index.set (key v) (insert i (group index (key v)))) := by
  refine ⟨?_, ?_, ?_⟩
  · intro k hk j
    have hgroup : group (index.set (key v) (insert i (group index (key v)))) k =
        if k = key v then insert i (group index k) else group index k := by
      simp only [group, FMap.get_set]
      split_ifs with he
      · rw [he]; rfl
      · rfl
    have hexact := h.exact k hk j
    rw [hgroup, FMap.get_set]
    by_cases hj : j = i
    · subst hj
      simp only [if_true, Option.some.injEq, exists_eq_left']
      split_ifs with he
      · simp [he]
      · rw [hexact]
        constructor
        · rintro ⟨v', hv', hk'⟩
          exact absurd (hk' ▸ hsame v' hv') he
        · exact fun hv => absurd hv.symm he
    · rw [if_neg hj, ← hexact]
      split_ifs with he
      · simp [hj]
      · rfl
  · intro k hk
    have hne : k ≠ key v := fun he => hk (by rw [he]; exact hS)
    rw [FMap.get_set_ne _ _ hne]
    exact h.outside k hk
  · intro k
    rw [FMap.get_set]
    split_ifs with he
    · simp
    · exact h.noEmpty k

/-- **An entry is removed.** -/
theorem Indexes.remove (h : Indexes key S store index) {i : ι} {v : V} (hv : store.get i = some v) :
    Indexes key S (store.del i) (eraseFrom index (key v) i) := by
  refine ⟨?_, ?_, ?_⟩
  · intro k hk j
    rw [group_eraseFrom, FMap.get_del]
    by_cases hj : j = i
    · subst hj
      simp only [if_true]
      constructor
      · intro hmem
        split_ifs at hmem with he
        · simp at hmem
        · obtain ⟨v', hv', hk'⟩ := (h.exact k hk j).1 hmem
          rw [hv] at hv'
          cases hv'
          exact absurd hk'.symm he
      · rintro ⟨v', hv', -⟩
        cases hv'
    · rw [if_neg hj, ← h.exact k hk j]
      split_ifs with he
      · rw [Finset.mem_erase, ← he]
        exact and_iff_right hj
      · rfl
  · intro k hk
    cases hg : (eraseFrom index (key v) i).get k with
    | none => rfl
    | some s =>
      obtain ⟨s', hs', -⟩ := eraseFrom_sub hg
      rw [h.outside k hk] at hs'
      cases hs'
  · intro k hk
    exact eraseFrom_noEmpty h.noEmpty _ _ _ hk

/-- a whole group goes -/
theorem Indexes.dropKey (h : Indexes key S store index) (k : K) : Indexes key (S \ {k}) store (index.del k) := by
  refine ⟨?_, ?_, ?_⟩
  · intro k' hk' i
    have hne : k' ≠ k := hk'.2
    rw [← h.exact k' hk'.1 i]
    simp only [group, FMap.get_del_ne _ hne]
  · intro k' hk'
    rw [FMap.get_del]
    split_ifs with he
    · rfl
    · exact h.outside k' fun hS => hk' ⟨hS, he⟩
  · intro k' hk'
    exact h.noEmpty k' (FMap.get_del_some hk').2

/-- keys that no stored value has are indexed exactly -/
theorem Indexes.restore {S' : Set K} (h : Indexes key S store index) (hsub : S ⊆ S')
    (hnone : ∀ k ∈ S', k ∉ S → ∀ i v, store.get i = some v → key v ≠ k) : Indexes key S' store index := by
  refine ⟨?_, fun k hk => h.outside k fun hS => hk (hsub hS), h.noEmpty⟩
  intro k hk i
  by_cases hS : k ∈ S
  · exact h.exact k hS i
  · simp only [group, h.outside k hS, Option.getD_none, Finset.notMem_empty, false_iff]
    rintro ⟨v, hv, hkv⟩
    exact hnone k hk hS i v hv hkv

end GroupIndex
