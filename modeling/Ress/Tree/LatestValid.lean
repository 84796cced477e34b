/-
The latest valid hash of a rejected block.

The rule is in the comment on `latest_valid_hash_for_invalid_payload`: the ancestor that is validated while every
ancestor in between is known to be invalid; the zero hash if that is a proof-of-work block; none if it cannot be
determined (`FollowsRule`). Three things are answered otherwise. A failed insertion does not ask whether the ancestor is
a proof-of-work block. A rejection on account of the cache answers zero where nothing is found. And both walk over the
entries of the invalid header cache, from a block to the parent of the block that is blamed for it, and so depend on
what the entries tell.

- `LeadsTo`: the validated block that such a walk ends at. The walk ends (`blameEnd_ends`).
- `EntriesTell`: what the cache and the store must be like for the walk to end at the latest valid ancestor
  (`EntriesTell.blameEnd_eq`).
- `failed_rule_iff`, `rejected_rule_iff`: then the two answers follow the rule exactly where the proof-of-work check and
  the zero hash come out right.
- `runs_latest_valid_iff`: the same for every call in every run.
-/
import Ress.Tree.Blame
import Ress.Tree.Judging

namespace Ress

/-- `p` is the parent hash of the block with hash `d` -/
def World.Parent (W : World) (d p : B256) : Prop := ∃ x, W.header d = some x ∧ x.parentHash = p

namespace World

variable {W : World}

theorem parent_fun (a b c : B256) (hb : W.Parent a b) (hc : W.Parent a c) : b = c := by
  obtain ⟨x, hx, rfl⟩ := hb
  obtain ⟨y, hy, rfl⟩ := hc
  cases hx.symm.trans hy
  rfl

theorem Knows.parent {x : SealedHeader} (h : W.Knows x) : W.Parent x.hash x.parentHash := ⟨x, h, rfl⟩

end World

namespace EngineTree

variable {E : Env} {W : World} {t t' : EngineTree E} {hash p e a : B256}

/-! ## The rule -/

/-- an entry of the cache blames the block or an ancestor of it -/
def KnownInvalid (W : World) (t : EngineTree E) (hash : B256) : Prop :=
  ∃ k x, t.invalidHeader k = some x ∧ W.Descends hash x.block.hash

/-- a validated proof-of-work block -/
def IsPow (t : EngineTree E) (hash : B256) : Prop :=
  ∃ header, t.provider.sealedHeader hash = some header ∧ header.difficulty ≠ 0

/-- the latest valid ancestor: it is validated, and every ancestor in between is known to be invalid -/
def LatestValid (W : World) (t : EngineTree E) (hash a : B256) : Prop :=
  Ancestry.First W.Parent t.Stored (KnownInvalid W t) hash a

/-- the documented latest valid hash of an invalid block -/
structure FollowsRule (W : World) (t : EngineTree E) (hash : B256) (latestValidHash : Option B256) : Prop where
  valid : ∀ a, LatestValid W t hash a → ¬ t.IsPow a → latestValidHash = some a
  pow : ∀ a, LatestValid W t hash a → t.IsPow a → latestValidHash = some 0
  undetermined : (∀ a, ¬ LatestValid W t hash a) → latestValidHash = none

/-! ## The walk over the entries -/

/-- from a hash to the parent of the block that its entry blames, as long as there is an entry -/
def blameEnd : ℕ → E.cache.Cache → B256 → Option B256
  | 0, _, _ => none
  | fuel + 1, cache, hash =>
    match E.cache.get cache hash with
    | (none, _) => some hash
    | (some header, cache) => blameEnd fuel cache header.parent

/-- the hash is that of a validated block, or the entries lead from it to one -/
def LeadsTo (t : EngineTree E) (hash a : B256) : Prop :=
  t.Stored hash ∧ a = hash ∨
    ¬ t.Stored hash ∧ t.Stored a ∧
      blameEnd ((E.cache.entries t.invalidHeaders).keys.card + 2) t.invalidHeaders hash = some a

theorem LeadsTo.stored (h : t.LeadsTo hash a) : t.Stored a := by
  rcases h with ⟨hs, rfl⟩ | ⟨-, hs, -⟩
  · exact hs
  · exact hs

theorem blameEnd_none {fuel : ℕ} {cache cache' : E.cache.Cache} (hg : E.cache.get cache hash = (none, cache')) :
    blameEnd (fuel + 1) cache hash = some hash := by
  unfold blameEnd
  rw [hg]

theorem blameEnd_some {fuel : ℕ} {cache cache' : E.cache.Cache} {header : BlockWithParent}
    (hg : E.cache.get cache hash = (some header, cache')) :
    blameEnd (fuel + 1) cache hash = blameEnd fuel cache' header.parent := by
  rw [blameEnd, hg]

theorem latestValidLoop_none (t : EngineTree E) (fuel : ℕ) (cache : E.cache.Cache) :
    (t.latestValidLoop fuel cache none).1 = none := by
  cases fuel <;> rfl

theorem latestValidLoop_iff (t : EngineTree E) (fuel : ℕ) (cache : E.cache.Cache) (header : BlockWithParent) :
    (t.latestValidLoop fuel cache (some header)).1 = some a ↔
      t.Stored a ∧ blameEnd fuel cache header.parent = some a := by
  induction fuel generalizing cache header with
  | zero => simp [latestValidLoop, blameEnd]
  | succ fuel ih =>
    unfold latestValidLoop
    cases hg : E.cache.get cache header.parent with
    | mk next cache' =>
      cases next with
      | some next =>
        rw [blameEnd_some hg, ← ih cache' next]
        simp
      | none =>
        rw [blameEnd_none hg]
        by_cases hs : (t.provider.sealedHeader header.parent).isSome = true
        · have hstored : t.Stored header.parent := ChainState.sealedHeader_isSome.1 hs
          simp only [hs, Option.isNone_none, and_self, if_true, Option.some.injEq]
          refine ⟨?_, fun h => h.2⟩
          rintro rfl
          exact ⟨hstored, rfl⟩
        · have hstored : ¬ t.Stored header.parent := fun h => hs (ChainState.sealedHeader_isSome.2 h)
          simp only [hs, and_false, if_false, latestValidLoop_none, Option.some.injEq, reduceCtorEq, false_iff,
            Bool.false_eq_true]
          rintro ⟨ha, rfl⟩
          exact hstored ha

/-- **What `latest_valid_hash_for_invalid_payload` finds**: the validated block that the hash leads to. -/
theorem latestValidHash_iff (t : EngineTree E) (hash a : B256) :
    (t.latestValidHashForInvalidPayload hash).1 = some a ↔ t.LeadsTo hash a := by
  unfold latestValidHashForInvalidPayload LeadsTo
  by_cases hs : (t.provider.sealedHeader hash).isSome = true
  · have hstored : t.Stored hash := ChainState.sealedHeader_isSome.1 hs
    rw [if_pos hs]
    simp only [hstored, true_and, not_true_eq_false, false_and, or_false, Option.some.injEq]
    exact eq_comm
  · have hstored : ¬ t.Stored hash := fun h => hs (ChainState.sealedHeader_isSome.2 h)
    rw [if_neg hs]
    cases hg : E.cache.get t.invalidHeaders hash with
    | mk current cache =>
      cases current with
      | some header =>
        rw [blameEnd_some hg]
        simp only [hstored, false_and, not_false_eq_true, true_and, false_or]
        exact latestValidLoop_iff t _ cache header
      | none =>
        rw [blameEnd_none hg]
        simp only [hstored, false_and, not_false_eq_true, true_and, false_or, latestValidLoop_none, Option.some.injEq,
          reduceCtorEq, false_iff]
        rintro ⟨ha, rfl⟩
        exact hstored ha

theorem latestValidHash_none_iff (t : EngineTree E) (hash : B256) :
    (t.latestValidHashForInvalidPayload hash).1 = none ↔ ∀ a, ¬ t.LeadsTo hash a := by
  rw [Option.eq_none_iff_forall_ne_some]
  exact forall_congr' fun a => not_congr (latestValidHash_iff t hash a)

/-! ## The walk passes over known invalid blocks only -/

/-- an entry is kept for the block that it blames or a descendant of it, and names that block's parent -/
def EntriesKnown (W : World) (t : EngineTree E) : Prop :=
  ∀ k x, t.invalidHeader k = some x → W.Descends k x.block.hash ∧ W.Parent x.block.hash x.parent

/-- a path from parent to parent over blocks that are known to be invalid -/
def InvalidPath (W : World) (t : EngineTree E) : B256 → B256 → Prop :=
  Relation.ReflTransGen fun d p => W.Parent d p ∧ KnownInvalid W t d

theorem EntriesKnown.path (h : EntriesKnown W t) {k : B256} {x : BlockWithParent} (hk : t.invalidHeader k = some x)
    (hd : W.Descends hash x.block.hash) : InvalidPath W t hash x.parent := by
  induction hd using Relation.ReflTransGen.head_induction_on with
  | refl => exact Relation.ReflTransGen.single ⟨(h k x hk).2, k, x, hk, Relation.ReflTransGen.refl⟩
  | @head d p hdp hp ih => exact Relation.ReflTransGen.head ⟨hdp, k, x, hk, Relation.ReflTransGen.head hdp hp⟩ ih

/-- from the parent of a block to the parent of the block that is blamed for it -/
theorem EntriesKnown.parent_path (h : EntriesKnown W t) {k q : B256} {x : BlockWithParent}
    (hk : t.invalidHeader k = some x) (hd : W.Descends hash x.block.hash) (hq : W.Parent hash q) :
    InvalidPath W t q x.parent := by
  rcases Relation.ReflTransGen.cases_head hd with rfl | ⟨c, hc, hrest⟩
  · cases World.parent_fun _ _ _ hq (h k x hk).2
    exact Relation.ReflTransGen.refl
  · cases World.parent_fun _ _ _ hq hc
    exact h.path hk hrest

theorem EntriesKnown.blameEnd_path (h : EntriesKnown W t) (fuel : ℕ) {cache : E.cache.Cache}
    (hsub : ∀ k x, (E.cache.entries cache).get k = some x → t.invalidHeader k = some x)
    (he : blameEnd fuel cache hash = some e) : InvalidPath W t hash e := by
  induction fuel generalizing cache hash with
  | zero => cases he
  | succ fuel ih =>
    cases hg : E.cache.get cache hash with
    | mk found cache' =>
      cases found with
      | none =>
        rw [blameEnd_none hg] at he
        cases he
        exact Relation.ReflTransGen.refl
      | some x =>
        rw [blameEnd_some hg] at he
        have hx : t.invalidHeader hash = some x := hsub hash x (E.cache.get_entry cache hash x (by rw [hg]))
        have hrest : InvalidPath W t x.parent e := by
          refine ih (fun k y hk => hsub k y (E.cache.get_forgets cache hash k y ?_)) he
          rw [hg]
          exact hk
        exact (h.path hx (h hash x hx).1).trans hrest

theorem EntriesKnown.leadsTo_path (h : EntriesKnown W t) (hf : Forgets t t') (hl : t'.LeadsTo hash e) :
    InvalidPath W t hash e := by
  rcases hl with ⟨-, rfl⟩ | ⟨-, -, hend⟩
  · exact Relation.ReflTransGen.refl
  · exact h.blameEnd_path _ hf.sub hend

open Classical in
theorem EntriesKnown.blameEnd_some_of_card (h : EntriesKnown W t) (hacyclic : ∀ d, ¬ Relation.TransGen W.Parent d d)
    (fuel : ℕ) {cache : E.cache.Cache}
    (hsub : ∀ k x, (E.cache.entries cache).get k = some x → t.invalidHeader k = some x)
    (hfuel : ((E.cache.entries cache).keys.filter (W.Descends hash)).card < fuel) :
    ∃ e, blameEnd fuel cache hash = some e := by
  induction fuel generalizing cache hash with
  | zero => omega
  | succ fuel ih =>
    cases hg : E.cache.get cache hash with
    | mk found cache' =>
      cases found with
      | none => exact ⟨hash, blameEnd_none hg⟩
      | some x =>
        rw [blameEnd_some hg]
        have hentry : (E.cache.entries cache).get hash = some x := E.cache.get_entry cache hash x (by rw [hg])
        have hforgets : ∀ k y, (E.cache.entries cache').get k = some y → (E.cache.entries cache).get k = some y := by
          intro k y hk
          refine E.cache.get_forgets cache hash k y ?_
          rw [hg]
          exact hk
        have hx := hsub hash x hentry
        -- the step goes to a proper ancestor, from which the hash itself is not met again
        have hstep : Relation.TransGen W.Parent hash x.parent :=
          Relation.TransGen.tail' (h hash x hx).1 (h hash x hx).2
        refine ih (fun k y hk => hsub k y (hforgets k y hk)) ?_
        refine lt_of_lt_of_le (Finset.card_lt_card ?_) (Nat.lt_succ_iff.1 hfuel)
        refine Finset.ssubset_iff_of_subset (fun k hk => ?_) |>.2 ⟨hash, ?_, fun hmem => ?_⟩
        · obtain ⟨hkey, hdescends⟩ := Finset.mem_filter.1 hk
          obtain ⟨y, hy⟩ := FMap.mem_keys.1 hkey
          exact Finset.mem_filter.2 ⟨FMap.mem_keys_of_get (hforgets k y hy), hstep.to_reflTransGen.trans hdescends⟩
        · exact Finset.mem_filter.2 ⟨FMap.mem_keys_of_get hentry, Relation.ReflTransGen.refl⟩
        · exact hacyclic hash (Relation.TransGen.trans_left hstep (Finset.mem_filter.1 hmem).2)

/-- **The walk ends** where no block is an ancestor of itself: there are no more steps than entries. -/
theorem EntriesKnown.blameEnd_ends (h : EntriesKnown W t) (hacyclic : ∀ d, ¬ Relation.TransGen W.Parent d d)
    (hash : B256) :
    ∃ e, blameEnd ((E.cache.entries t.invalidHeaders).keys.card + 2) t.invalidHeaders hash = some e := by
  classical
  refine h.blameEnd_some_of_card hacyclic _ (fun _ _ hk => hk) ?_
  have hle := Finset.card_filter_le (E.cache.entries t.invalidHeaders).keys (W.Descends hash)
  omega

/-! ## When the answers follow the rule -/

theorem LatestValid.unique (ha : LatestValid W t hash a) (he : LatestValid W t hash e) : a = e :=
  Ancestry.First.unique World.parent_fun ha he

theorem Forgets.stored_iff (hf : Forgets t t') (a : B256) : t'.Stored a ↔ t.Stored a := by
  unfold EngineTree.Stored
  rw [hf.provider]

theorem Forgets.isPow_iff (hf : Forgets t t') (a : B256) : t'.IsPow a ↔ t.IsPow a := by
  unfold IsPow
  rw [hf.provider]

/-- no block has the zero hash -/
theorem Wf.stored_ne_zero (hwf : Wf W t) (hzero : W.header 0 = none) (ha : t.Stored a) : a ≠ 0 := by
  rintro rfl
  obtain ⟨b, hb⟩ := ha
  obtain ⟨hbh, hknows⟩ := hwf.chain.state.known 0 b hb
  simp only [World.Knows] at hknows
  rw [hbh, hzero] at hknows
  cases hknows

theorem EntriesKnown.zero (h : EntriesKnown W t) (hzero : W.header 0 = none) : t.invalidHeader 0 = none := by
  cases hk : t.invalidHeader 0 with
  | none => rfl
  | some x =>
    obtain ⟨hdescends, hparent⟩ := h 0 x hk
    have hheader : ∃ p, W.Parent 0 p := by
      rcases Relation.ReflTransGen.cases_head hdescends with heq | ⟨q, hq, -⟩
      · exact ⟨x.parent, heq ▸ hparent⟩
      · exact ⟨q, hq⟩
    obtain ⟨p, y, hy, -⟩ := hheader
    cases hzero.symm.trans hy

theorem exists_latestValid (hd : W.Parent hash p) (hpath : InvalidPath W t p e) (hs : t.Stored e) :
    ∃ a, LatestValid W t hash a := Ancestry.exists_first hd hpath hs

/-- an ancestor is answered -/
theorem followsRule_some_iff (he : e ≠ 0) (ha : LatestValid W t hash a) :
    FollowsRule W t hash (some e) ↔ a = e ∧ ¬ t.IsPow a := by
  refine ⟨fun h => ?_, ?_⟩
  · by_cases hpow : t.IsPow a
    · exact absurd (Option.some.inj (h.pow a ha hpow)) he
    · exact ⟨(Option.some.inj (h.valid a ha hpow)).symm, hpow⟩
  · rintro ⟨rfl, hpow⟩
    refine ⟨fun a' ha' _ => ?_, fun a' ha' hpow' => ?_, fun h => absurd ha (h a)⟩
    · rw [ha'.unique ha]
    · rw [ha'.unique ha] at hpow'
      exact absurd hpow' hpow

/-- zero is answered -/
theorem followsRule_zero_iff (hne : ∀ a, LatestValid W t hash a → a ≠ 0) :
    FollowsRule W t hash (some 0) ↔ ∃ a, LatestValid W t hash a ∧ t.IsPow a := by
  refine ⟨fun h => ?_, ?_⟩
  · by_contra hnone
    have hundetermined : ∀ a, ¬ LatestValid W t hash a := by
      intro a ha
      have hpow : ¬ t.IsPow a := fun hpow => hnone ⟨a, ha, hpow⟩
      exact hne a ha (Option.some.inj (h.valid a ha hpow)).symm
    cases h.undetermined hundetermined
  · rintro ⟨a, ha, hpow⟩
    refine ⟨fun a' ha' hpow' => ?_, fun _ _ _ => rfl, fun h => absurd ha (h a)⟩
    rw [ha'.unique ha] at hpow'
    exact absurd hpow hpow'

/-- nothing is answered -/
theorem followsRule_none_iff : FollowsRule W t hash none ↔ ∀ a, ¬ LatestValid W t hash a := by
  refine ⟨fun h a ha => ?_, fun h => ⟨fun a ha => absurd ha (h a), fun a ha => absurd ha (h a), fun _ => rfl⟩⟩
  by_cases hpow : t.IsPow a
  · cases h.pow a ha hpow
  · cases h.valid a ha hpow

/-- the cache once these hashes have been looked up -/
def lookedUp (cache : E.cache.Cache) (hashes : List B256) : E.cache.Cache :=
  hashes.foldl (fun cache hash => (E.cache.get cache hash).2) cache

/-- the entries tell the latest valid ancestor of a block: no validated ancestor is known to be invalid; the parent of a
block that an ancestor's entry blames has an entry of its own, if it is known to be invalid; and an entry that has not
been looked up yet is found -/
structure EntriesTell (W : World) (t : EngineTree E) (hash : B256) : Prop where
  validated : ∀ a, Relation.TransGen W.Parent hash a → t.Stored a → ¬ KnownInvalid W t a
  recorded : ∀ k x, W.Descends hash k → t.invalidHeader k = some x → KnownInvalid W t x.parent →
    t.invalidHeader x.parent ≠ none
  found : ∀ hashes k x, W.Descends hash k → t.invalidHeader k = some x → k ∉ hashes →
    (E.cache.get (lookedUp t.invalidHeaders hashes) k).1 = some x

/-- `a` is the latest valid ancestor of the block, and there are `n` blocks in between -/
def LatestValidIn (W : World) (t : EngineTree E) (n : ℕ) (hash a : B256) : Prop :=
  Ancestry.FirstIn W.Parent t.Stored (KnownInvalid W t) n hash a

theorem lookedUp_entries (hashes : List B256) (cache : E.cache.Cache) (k : B256) (x : BlockWithParent)
    (hk : (E.cache.entries (lookedUp cache hashes)).get k = some x) : (E.cache.entries cache).get k = some x := by
  induction hashes generalizing cache with
  | nil => exact hk
  | cons hash hashes ih => exact E.cache.get_forgets cache hash k x (ih _ hk)

/-- an entry for a block before the latest valid ancestor blames one before it, whose parent is the ancestor or is
before it as well -/
theorem EntriesTell.next (h : EntriesTell W t hash) (hentries : EntriesKnown W t)
    (ha : Relation.TransGen W.Parent hash a) {n : ℕ} {q : B256} (hq : LatestValidIn W t n q a) {x : BlockWithParent}
    (hx : t.invalidHeader q = some x) :
    x.parent = a ∨ ∃ m < n, LatestValidIn W t m x.parent a ∧ ¬ t.Stored x.parent ∧ KnownInvalid W t x.parent := by
  obtain ⟨hdescends, hparent⟩ := hentries q x hx
  exact hq.next World.parent_fun hdescends (fun hbelow => h.validated a ha hq.stops ⟨q, x, hx, hbelow⟩) hparent

/-- the latest valid ancestor itself has no entry -/
theorem EntriesTell.unrecorded (h : EntriesTell W t hash) (hentries : EntriesKnown W t)
    (ha : Relation.TransGen W.Parent hash a) (hstored : t.Stored a) : t.invalidHeader a = none := by
  cases hy : t.invalidHeader a with
  | none => rfl
  | some y => exact absurd ⟨a, y, hy, (hentries a y hy).1⟩ (h.validated a ha hstored)

open Classical in
/-- **The walk ends at the latest valid ancestor**, where the entries tell it. The blocks looked up so far are farther
away, or have no entry. -/
theorem EntriesTell.blameEnd_eq (h : EntriesTell W t hash) (hentries : EntriesKnown W t)
    (ha : Relation.TransGen W.Parent hash a) (fuel : ℕ) (hashes : List B256) {n : ℕ} {q : B256}
    (hvisited : ∀ k ∈ hashes, t.invalidHeader k ≠ none → ∃ m > n, LatestValidIn W t m k a)
    (hq : LatestValidIn W t n q a) (hdescends : W.Descends hash q) (hentry : t.invalidHeader q ≠ none)
    (hfuel : ((E.cache.entries (lookedUp t.invalidHeaders hashes)).keys.filter
      fun k => ∃ m ≤ n, LatestValidIn W t m k a).card < fuel) :
    blameEnd fuel (lookedUp t.invalidHeaders hashes) q = some a := by
  induction fuel generalizing hashes n q with
  | zero => omega
  | succ fuel ih =>
    obtain ⟨x, hx⟩ := Option.ne_none_iff_exists'.1 hentry
    have hnew : q ∉ hashes := by
      intro hmem
      obtain ⟨m, hm, hqm⟩ := hvisited q hmem hentry
      have := hqm.count_unique World.parent_fun hq
      omega
    have hget := h.found hashes q x hdescends hx hnew
    have hcurrent := E.cache.get_entry _ q x hget
    have hcache : (E.cache.get (lookedUp t.invalidHeaders hashes) q).2 = lookedUp t.invalidHeaders (hashes ++ [q]) := by
      simp only [lookedUp, List.foldl_append, List.foldl_cons, List.foldl_nil]
    have hlooked : E.cache.get (lookedUp t.invalidHeaders hashes) q =
        (some x, lookedUp t.invalidHeaders (hashes ++ [q])) := Prod.ext hget hcache
    rw [blameEnd_some hlooked]
    have hkey : q ∈ (E.cache.entries (lookedUp t.invalidHeaders hashes)).keys.filter
        fun k => ∃ m ≤ n, LatestValidIn W t m k a :=
      Finset.mem_filter.2 ⟨FMap.mem_keys_of_get hcurrent, n, le_rfl, hq⟩
    rcases h.next hentries ha hq hx with heq | ⟨m, hm, hp, -, hknown⟩
    · -- the parent is the ancestor, which has no entry
      rw [heq]
      have hpos := Finset.card_pos.2 ⟨q, hkey⟩
      obtain ⟨fuel, rfl⟩ : ∃ k, fuel = k + 1 := ⟨fuel - 1, by omega⟩
      cases hg : E.cache.get (lookedUp t.invalidHeaders (hashes ++ [q])) a with
      | mk found cache =>
        cases found with
        | none => exact blameEnd_none hg
        | some y =>
          have hy : t.invalidHeader a = some y :=
            lookedUp_entries _ _ a y (E.cache.get_entry _ a y (by rw [hg]))
          cases (h.unrecorded hentries ha hq.stops).symm.trans hy
    · refine ih (hashes ++ [q]) (fun k hk hkentry => ?_) hp ?_ (h.recorded q x hdescends hx hknown) ?_
      · rcases List.mem_append.1 hk with hk | hk
        · obtain ⟨m', hm', hkm⟩ := hvisited k hk hkentry
          exact ⟨m', by omega, hkm⟩
        · rw [List.mem_singleton.1 hk]
          exact ⟨n, hm, hq⟩
      · exact (hdescends.trans (hentries q x hx).1).tail (hentries q x hx).2
      · -- the entry of `q` is behind
        refine lt_of_lt_of_le (Finset.card_lt_card ?_) (Nat.lt_succ_iff.1 hfuel)
        refine Finset.ssubset_iff_of_subset (fun k hk => ?_) |>.2 ⟨q, hkey, fun hmem => ?_⟩
        · obtain ⟨hkeys, m', hm', hkm⟩ := Finset.mem_filter.1 hk
          obtain ⟨y, hy⟩ := FMap.mem_keys.1 hkeys
          refine Finset.mem_filter.2 ⟨FMap.mem_keys_of_get (E.cache.get_forgets _ q k y ?_), m', by omega, hkm⟩
          rw [hcache]
          exact hy
        · obtain ⟨-, m', hm', hqm⟩ := Finset.mem_filter.1 hmem
          have := hqm.count_unique World.parent_fun hq
          omega

theorem EntriesTell.leadsTo (h : EntriesTell W t hash) (hentries : EntriesKnown W t)
    (ha : Relation.TransGen W.Parent hash a) {n : ℕ} {q check : B256} (hq : LatestValidIn W t n q a)
    (hdescends : W.Descends hash q) (hstored : ¬ t.Stored q) (hentry : t.invalidHeader q ≠ none)
    (hcheck : t.invalidHeader check ≠ none → ∃ m > n, LatestValidIn W t m check a) :
    (t.afterLookup check).LeadsTo q a := by
  classical
  refine Or.inr ⟨hstored, hq.stops, h.blameEnd_eq hentries ha _ [check] (fun k hk hkentry => ?_) hq hdescends
    hentry ?_⟩
  · rw [List.mem_singleton.1 hk] at hkentry ⊢
    exact hcheck hkentry
  · have hle := Finset.card_filter_le (E.cache.entries (lookedUp t.invalidHeaders [check])).keys
      fun k => ∃ m ≤ n, LatestValidIn W t m k a
    change _ < (E.cache.entries (lookedUp t.invalidHeaders [check])).keys.card + 2
    omega

theorem LatestValid.transGen (h : LatestValid W t hash a) : Relation.TransGen W.Parent hash a := by
  induction h with
  | parent hp => exact Relation.TransGen.single hp
  | above hp _ _ _ ih => exact Relation.TransGen.head hp ih

/-- what a failed insertion needs the entries for: nothing if the parent is validated -/
def FailureTold (W : World) (t : EngineTree E) (hash parent : B256) : Prop :=
  ¬ t.Stored parent → EntriesTell W t hash ∧ (KnownInvalid W t parent → t.invalidHeader parent ≠ none)

/-- **A failed insertion** follows the rule unless the latest valid ancestor is a proof-of-work block. -/
theorem failed_rule_iff {check : B256} (hwf : Wf W t) (hzero : W.header 0 = none) (hentries : EntriesKnown W t)
    (hparent : W.Parent hash p) (hcheck : W.Descends hash check) (hmiss : t.lookupInvalid check = none)
    (htold : FailureTold W t hash p) :
    FollowsRule W t hash ((t.afterLookup check).latestValidHashForInvalidPayload p).1 ↔
      ∀ a, LatestValid W t hash a → ¬ t.IsPow a := by
  have hf : Forgets t (t.afterLookup check) := get_forgets t check
  -- where the parent leads to the ancestor, that is answered
  have hsome : ∀ a, LatestValid W t hash a → (t.afterLookup check).LeadsTo p a →
      (FollowsRule W t hash ((t.afterLookup check).latestValidHashForInvalidPayload p).1 ↔
        ∀ a, LatestValid W t hash a → ¬ t.IsPow a) := by
    intro a ha hl
    rw [(latestValidHash_iff _ p a).2 hl, followsRule_some_iff (hwf.stored_ne_zero hzero ha.stops) ha]
    refine ⟨?_, fun hall => ⟨rfl, hall a ha⟩⟩
    rintro ⟨-, hpow⟩ a' ha'
    rwa [ha'.unique ha]
  by_cases hstored : t.Stored p
  · exact hsome p (Ancestry.First.parent hparent hstored) (Or.inl ⟨(hf.stored_iff p).2 hstored, rfl⟩)
  · obtain ⟨htell, hown⟩ := htold hstored
    by_cases hex : ∃ a, LatestValid W t hash a
    · obtain ⟨a, ha⟩ := hex
      refine hsome a ha ?_
      obtain ⟨n, hn⟩ := ha.exists_count
      cases hn with
      | parent hp hs => exact absurd (World.parent_fun _ _ _ hp hparent ▸ hs) hstored
      | above hp _ hknown hrest =>
        cases World.parent_fun _ _ _ hp hparent
        refine htell.leadsTo hentries ha.transGen hrest (Relation.ReflTransGen.single hp) hstored (hown hknown)
          fun hentry => ?_
        -- the check hash has no entry: it would have been found
        obtain ⟨x, hx⟩ := Option.ne_none_iff_exists'.1 hentry
        have hfound := htell.found [] check x hcheck hx (List.not_mem_nil)
        cases hmiss.symm.trans hfound
    · have hnone : ∀ a, ¬ LatestValid W t hash a := fun a ha => hex ⟨a, ha⟩
      have hleads : ∀ e, ¬ (t.afterLookup check).LeadsTo p e := by
        intro e hl
        exact hex (exists_latestValid hparent (hentries.leadsTo_path hf hl) ((hf.stored_iff e).1 hl.stored))
      rw [(latestValidHash_none_iff _ p).2 hleads, followsRule_none_iff]
      exact ⟨fun _ a ha => absurd ha (hnone a), fun _ => hnone⟩

/-- a hash that is neither validated nor recorded leads nowhere -/
theorem not_leadsTo (hs : ¬ t.Stored hash) (hentry : t.invalidHeader hash = none) (a : B256) : ¬ t.LeadsTo hash a := by
  rintro (⟨hstored, -⟩ | ⟨-, hstored, hend⟩)
  · exact hs hstored
  · cases hg : E.cache.get t.invalidHeaders hash with
    | mk found cache =>
      cases found with
      | none =>
        rw [blameEnd_none hg] at hend
        cases hend
        exact hs hstored
      | some x =>
        have hx : t.invalidHeader hash = some x := E.cache.get_entry t.invalidHeaders hash x (by rw [hg])
        cases hentry.symm.trans hx

theorem prepareInvalidResponse_pow (hzero : ¬ t.Stored 0) (hentry : t.invalidHeader 0 = none) (hp : t.IsPow p) :
    (t.prepareInvalidResponse p).1.latestValidHash = some 0 := by
  obtain ⟨header, hheader, hpow⟩ := hp
  have hparent : t.invalidResponseParent p = 0 := by
    simp only [invalidResponseParent, hheader]
    rw [if_pos hpow]
  have hnone := (latestValidHash_none_iff t 0).2 (not_leadsTo hzero hentry)
  simp only [prepareInvalidResponse, hparent, hnone, Option.getD_none]

theorem prepareInvalidResponse_notPow (hp : ¬ t.IsPow p) :
    (t.prepareInvalidResponse p).1.latestValidHash = some ((t.latestValidHashForInvalidPayload p).1.getD 0) := by
  have hparent : t.invalidResponseParent p = p := by
    unfold invalidResponseParent
    cases hheader : t.provider.sealedHeader p with
    | none => rfl
    | some header =>
      simp only
      rw [if_neg fun hpow => hp ⟨header, hheader, hpow⟩]
  simp only [prepareInvalidResponse, hparent]

theorem rejected_answer {check p : B256} (hpow : ¬ t.IsPow p) (hl : (t.afterLookup check).LeadsTo p a) :
    ((t.afterLookup check).prepareInvalidResponse p).1.latestValidHash = some a := by
  have hf : Forgets t (t.afterLookup check) := get_forgets t check
  rw [prepareInvalidResponse_notPow fun h => hpow ((hf.isPow_iff _).1 h), (latestValidHash_iff _ _ a).2 hl,
    Option.getD_some]

/-- zero is answered where the block has no latest valid ancestor, and no ancestor makes zero due -/
theorem rejected_undetermined {check q : B256} {header : BlockWithParent} (hwf : Wf W t) (hzero : W.header 0 = none)
    (hentries : EntriesKnown W t) (hparent : W.Parent hash q) (hblamed : InvalidPath W t q header.parent)
    (hnone : ¬ ∃ a, LatestValid W t hash a) :
    ¬ FollowsRule W t hash ((t.afterLookup check).prepareInvalidResponse header.parent).1.latestValidHash := by
  have hf : Forgets t (t.afterLookup check) := get_forgets t check
  have hleads : ∀ e, ¬ (t.afterLookup check).LeadsTo header.parent e := by
    intro e hl
    exact hnone (exists_latestValid hparent (hblamed.trans (hentries.leadsTo_path hf hl)) ((hf.stored_iff e).1 hl.stored))
  have hpow : ¬ (t.afterLookup check).IsPow header.parent := by
    rintro ⟨x, hx, -⟩
    exact hleads _ (Or.inl ⟨ChainState.sealedHeader_isSome.1 (Option.isSome_iff_exists.2 ⟨x, hx⟩), rfl⟩)
  rw [prepareInvalidResponse_notPow hpow, (latestValidHash_none_iff _ _).2 hleads, Option.getD_none,
    followsRule_zero_iff fun a ha => hwf.stored_ne_zero hzero ha.stops]
  rintro ⟨a, ha, -⟩
  exact hnone ⟨a, ha⟩

/-- **A rejection on account of the cache** follows the rule if and only if there is a latest valid ancestor, and it is
no proof-of-work block unless it is the parent of the block that is blamed. -/
theorem rejected_rule_iff {check q : B256} {header : BlockWithParent} (hwf : Wf W t) (hzero : W.header 0 = none)
    (hentries : EntriesKnown W t) (hparent : W.Parent hash q) (hcheck : W.Descends hash check)
    (hh : t.invalidHeader check = some header) (htell : EntriesTell W t hash) :
    FollowsRule W t hash ((t.afterLookup check).prepareInvalidResponse header.parent).1.latestValidHash ↔
      ∃ a, LatestValid W t hash a ∧ (t.IsPow a → a = header.parent) := by
  have hf : Forgets t (t.afterLookup check) := get_forgets t check
  have hne : ∀ a, LatestValid W t hash a → a ≠ 0 := fun a ha => hwf.stored_ne_zero hzero ha.stops
  obtain ⟨hblamed, hblamedParent⟩ := hentries check header hh
  by_cases hex : ∃ a, LatestValid W t hash a
  · obtain ⟨a, ha⟩ := hex
    have hiff : (∃ a, LatestValid W t hash a ∧ (t.IsPow a → a = header.parent)) ↔ (t.IsPow a → a = header.parent) := by
      refine ⟨?_, fun h => ⟨a, ha, h⟩⟩
      rintro ⟨a', ha', h⟩
      rwa [ha'.unique ha] at h
    rw [hiff]
    obtain ⟨n, hn⟩ := ha.exists_count
    have hbefore : ¬ W.Descends a check := by
      intro hbelow
      exact htell.validated a ha.transGen ha.stops ⟨check, header, hh, hbelow.trans hblamed⟩
    obtain ⟨m, -, hm⟩ := (hn.split World.parent_fun hcheck).resolve_right hbefore
    rcases htell.next hentries ha.transGen hm hh with heq | ⟨k, hk, hp, hstored, hknown⟩
    · -- the parent of the blamed block is the ancestor
      by_cases hpow : t.IsPow header.parent
      · have hzero' : ¬ (t.afterLookup check).Stored 0 := fun h => hwf.stored_ne_zero hzero ((hf.stored_iff 0).1 h) rfl
        rw [prepareInvalidResponse_pow hzero' (hf.none (hentries.zero hzero)) ((hf.isPow_iff _).2 hpow),
          followsRule_zero_iff hne]
        exact ⟨fun _ _ => heq.symm, fun _ => ⟨a, ha, heq ▸ hpow⟩⟩
      · have hl : (t.afterLookup check).LeadsTo header.parent a :=
          Or.inl ⟨heq ▸ (hf.stored_iff a).2 ha.stops, heq.symm⟩
        rw [rejected_answer hpow hl, followsRule_some_iff (hne a ha) ha]
        exact ⟨fun _ _ => heq.symm, fun _ => ⟨rfl, heq ▸ hpow⟩⟩
    · -- the entries lead from it to the ancestor
      have hpow : ¬ t.IsPow header.parent := by
        rintro ⟨x, hx, -⟩
        exact hstored (ChainState.sealedHeader_isSome.1 (Option.isSome_iff_exists.2 ⟨x, hx⟩))
      have hl := htell.leadsTo hentries ha.transGen hp ((hcheck.trans hblamed).tail hblamedParent) hstored
        (htell.recorded check header hcheck hh hknown) fun _ => ⟨m, hk, hm⟩
      rw [rejected_answer hpow hl, followsRule_some_iff (hne a ha) ha]
      refine ⟨?_, fun h => ⟨rfl, fun hpowa => hstored (h hpowa ▸ ha.stops)⟩⟩
      rintro ⟨-, hpowa⟩ h
      exact absurd h hpowa
  · have hpath : InvalidPath W t q header.parent := hentries.parent_path hh (hcheck.trans hblamed) hparent
    refine ⟨fun h => absurd h (rejected_undetermined hwf hzero hentries hparent hpath hex), ?_⟩
    rintro ⟨a, ha, -⟩
    exact absurd ⟨a, ha⟩ hex

/-! ## Every call in every run -/

/-- the headers of all blocks that have been inserted are known -/
def CallsKnown (W : World) (t : EngineTree E) : Prop := ∀ call ∈ t.insertions, W.Knows call.block.toSealedHeader

theorem Blames.entriesKnown (h : Blames W t) (hcalls : CallsKnown W t) : EntriesKnown W t := by
  intro k x hk
  obtain ⟨⟨call, hmem, rfl, -⟩, hdescends⟩ := h k x hk
  exact ⟨hdescends, (hcalls call hmem).parent⟩

theorem CallsKnown.congr (h : CallsKnown W t) (heq : t'.insertions = t.insertions) : CallsKnown W t' := by
  unfold CallsKnown
  rw [heq]
  exact h

theorem Inserts.callsKnown {b : Block} {mw : Option ExecutionWitness} {r : Except InsertBlockErrorKind InsertPayloadOk}
    (hi : Inserts t b mw r t') (h : CallsKnown W t) (hb : W.Knows b.toSealedHeader) : CallsKnown W t' := by
  intro call hmem
  rw [hi.insertions] at hmem
  rcases List.mem_append.1 hmem with hold | hnew
  · exact h call hold
  · rw [List.mem_singleton.1 hnew]
    exact hb

/-- the calls on behalf of a block and its buffered descendants -/
theorem CallsKnown.keeps (W : World) :
    Keeps (E := E) (fun t => Wf W t ∧ CallsKnown W t) fun b _ => W.Knows b.toSealedHeader where
  cache h := ⟨⟨h.1.chain, h.1.buffer⟩, h.2⟩
  inserts hb hi h := ⟨hi.wf h.1 hb, hi.callsKnown h.2 hb⟩
  makeCanonical target h := by
    obtain ⟨-, -, -, hinsertions, -⟩ := makeCanonical_frame _ target
    exact ⟨h.1.makeCanonical target, h.2.congr hinsertions⟩
  takes ord p h := by
    obtain ⟨hwf, htaken⟩ := h.1.takeFor ord p
    exact ⟨⟨hwf, h.2⟩, htaken⟩

theorem Updates.insertions {sched : StateRoot.Schedule} {state : ForkchoiceState} {r : UpdateAnswer}
    (hu : Updates sched t state r t') : t'.insertions = t.insertions := by
  cases hu with
  | zeroHead => rfl
  | invalid _ _ _ hf => rw [hf.same]
  | currentInconsistent _ hf => rw [hf.same]
  | current _ hf => rw [hf.same]
  | updateInconsistent _ hf => rw [hf.same]; rfl
  | updated _ hf => rw [onFinalized_insertions, hf.same]; rfl
  | stored _ hf => rw [hf.same]
  | syncing _ hf => rw [hf.same]

theorem CallsKnown.step (h : CallsKnown W t) (hwf : Wf W t) {op : Op E} (hok : OpKnown W op) :
    CallsKnown W (t.step op) := by
  cases op with
  | newPayload sched payload mw =>
    rcases onNewPayload_cases t sched payload mw with ⟨_, _, _, _, _, hf⟩ | ⟨b, hb, hr⟩
    · have heq : (t.onNewPayload sched payload mw).2.insertions = t.insertions := by rw [hf.same]
      exact h.congr heq
    · exact ((CallsKnown.keeps W).receives hr (hok b hb) ⟨hwf, h⟩).2
  | downloadedBlock sched b w =>
    exact ((CallsKnown.keeps W).receives (onDownloadedBlock_receives t sched b w) hok ⟨hwf, h⟩).2
  | forkchoiceUpdated sched state attrs version =>
    exact h.congr (onForkchoiceUpdated_updates t sched state attrs version).insertions
  | makeCanonical target =>
    obtain ⟨-, -, -, hinsertions, -⟩ := makeCanonical_frame t target
    exact h.congr hinsertions
  | bytecodeReceived c code =>
    change CallsKnown W (t.onBytecode c code).2
    unfold EngineTree.onBytecode RessProvider.insertBytecode
    cases t.provider.database.insertBytecode c code <;> exact h
  | _ => exact h

theorem checkInvalidAncestor_found {check : B256} {header : BlockWithParent}
    (hh : t.lookupInvalid check = some header) :
    (t.checkInvalidAncestor check).1 = some ((t.afterLookup check).prepareInvalidResponse header.parent).1 := by
  unfold lookupInvalid at hh
  unfold checkInvalidAncestor afterLookup withCache
  cases hc : E.cache.get t.invalidHeaders check with
  | mk found cache =>
    rw [hc] at hh
    simp only at hh
    subst hh
    rfl

theorem checkInvalidAncestor_notFound {check : B256} (hn : t.lookupInvalid check = none) :
    t.checkInvalidAncestor check = (none, t.afterLookup check) := by
  unfold lookupInvalid at hn
  unfold checkInvalidAncestor afterLookup withCache
  cases hc : E.cache.get t.invalidHeaders check with
  | mk found cache =>
    rw [hc] at hn
    simp only at hn
    subst hn
    rfl

/-- a forkchoice update is INVALID only by the entry that is found for its head -/
theorem onForkchoiceUpdated_invalid {sched : StateRoot.Schedule} {state : ForkchoiceState}
    {attrs : Option E.validator.PayloadAttributes} {version : ℕ} {status : PayloadStatus} {event : Option TreeEvent}
    (hr : (t.onForkchoiceUpdated sched state attrs version).1 = .ok ⟨.withInvalid status, event⟩) :
    ∃ header, t.lookupInvalid (t.lowestBufferedAncestorOr state.headBlockHash) = some header ∧
      status = ((t.afterLookup (t.lowestBufferedAncestorOr state.headBlockHash)).prepareInvalidResponse
        header.parent).1 := by
  unfold onForkchoiceUpdated preValidateForkchoiceUpdate at hr
  by_cases hz : state.headBlockHash = 0
  · rw [if_pos hz] at hr
    cases hr
  · rw [if_neg hz] at hr
    cases hn : t.lookupInvalid (t.lowestBufferedAncestorOr state.headBlockHash) with
    | some header =>
      have hfound := checkInvalidAncestor_found hn
      cases hc : t.checkInvalidAncestor (t.lowestBufferedAncestorOr state.headBlockHash) with
      | mk found t₁ =>
        rw [hc] at hfound hr
        simp only at hfound
        subst hfound
        cases hr
        exact ⟨header, rfl, rfl⟩
    | none =>
      exfalso
      rw [checkInvalidAncestor_notFound hn] at hr
      simp only at hr
      generalize t.afterLookup (t.lowestBufferedAncestorOr state.headBlockHash) = t₁ at hr
      by_cases hhead : t₁.canonicalHead.hash = state.headBlockHash
      · rw [if_pos hhead] at hr
        rcases ensureConsistent_cases t₁ state with ⟨hok, -⟩ | ⟨herr, -⟩
        · rw [hok] at hr
          simp only at hr
          cases attrs with
          | none => cases hr
          | some attr =>
            simp only at hr
            split at hr
            · cases hr
            · split at hr
              · rename_i status' hstatus
                rw [validatePayloadAttributes_some hstatus] at hr
                cases hr
              · cases hr
        · rw [herr] at hr
          cases hr
      · rw [if_neg hhead] at hr
        cases hnew : t₁.onNewHead state.headBlockHash with
        | some update =>
          rw [hnew] at hr
          simp only at hr
          rcases ensureConsistent_cases (t₁.onCanonicalChainUpdate update) state with ⟨hok, -⟩ | ⟨herr, -⟩
          · rw [hok] at hr
            simp only at hr
            split at hr
            · rename_i status' hstatus
              obtain ⟨attr, -, hattr⟩ := Option.bind_eq_some_iff.1 hstatus
              rw [validatePayloadAttributes_some hattr] at hr
              cases hr
            · cases hr
          · rw [herr] at hr
            cases hr
        | none =>
          rw [hnew] at hr
          simp only at hr
          by_cases hs : (t₁.provider.sealedHeader state.headBlockHash).isSome = true
          · rw [if_pos hs] at hr
            cases hr
          · rw [if_neg hs] at hr
            cases hr

/-- what the entries have to tell for the answer: it is a rejection on account of the entry found under the check hash,
or the block's own insertion has failed -/
def Told (W : World) (t : EngineTree E) (check hash parent : B256) : Prop :=
  match t.lookupInvalid check with
  | some _ => EntriesTell W t hash
  | none => FailureTold W t hash parent

/-- a rejection needs a latest valid ancestor, which may be a proof-of-work block only if the blamed block stands on it;
a failed insertion must not have one that is a proof-of-work block -/
def LatestValidRight (W : World) (t : EngineTree E) (check hash : B256) : Prop :=
  match t.lookupInvalid check with
  | some header => ∃ a, LatestValid W t hash a ∧ (t.IsPow a → a = header.parent)
  | none => ∀ a, LatestValid W t hash a → ¬ t.IsPow a

theorem Judges.latestValid_iff {sched : StateRoot.Schedule} {check : B256} {b : Block} {mw : Option ExecutionWitness}
    {status : PayloadStatus} {event : Option TreeEvent} (hj : Judges t sched check b mw (.ok ⟨status, event⟩) t')
    (hinvalid : status.IsInvalid) (hwf : Wf W t) (hzero : W.header 0 = none) (hentries : EntriesKnown W t)
    (hb : W.Knows b.toSealedHeader) (hcheck : W.Descends b.hash check) (htold : Told W t check b.hash b.parentHash) :
    FollowsRule W t b.hash status.latestValidHash ↔ LatestValidRight W t check b.hash := by
  unfold Told at htold
  unfold LatestValidRight
  cases hj with
  | rejected header hh =>
    rw [hh] at htold ⊢
    exact rejected_rule_iff hwf hzero hentries hb.parent hcheck (lookupInvalid_some hh) htold
  | failed kind text hn hr _ =>
    rw [hn] at htold ⊢
    have hprovider : (t.afterInsertion sched check b mw).provider = (t.afterLookup check).provider := by
      have hi := insertBlock_inserts t sched b mw
      rw [hr] at hi
      unfold afterInsertion
      generalize (t.insertBlock sched b mw).2 = t₁ at hi ⊢
      cases hi with
      | refused => rfl
    have hcongr := latestValidHash_congr hprovider rfl b.parentHash
    rw [hcongr]
    exact failed_rule_iff hwf hzero hentries hb.parent hcheck hn htold
  | passed _ _ hvalid => exact absurd hinvalid (hvalid _ rfl)

/-- exactly when the answers of a tree follow the rule, where the entries tell -/
structure AnswersFollowRule (W : World) (t : EngineTree E) : Prop where
  payload : ∀ sched payload mw b status event, E.validator.ensureWellFormedPayload payload = .ok b →
    W.Knows b.toSealedHeader → (t.onNewPayload sched payload mw).1 = .ok ⟨status, event⟩ → status.IsInvalid →
    Told W t (t.payloadCheck b) b.hash b.parentHash →
    (FollowsRule W t b.hash status.latestValidHash ↔ LatestValidRight W t (t.payloadCheck b) b.hash)
  downloaded : ∀ sched b witness status event, W.Knows b.toSealedHeader →
    (t.onDownloadedBlock sched b witness).1 = .ok ⟨status, event⟩ → status.IsInvalid →
    Told W t (t.lowestBufferedAncestorOr b.hash) b.hash b.parentHash →
    (FollowsRule W t b.hash status.latestValidHash ↔ LatestValidRight W t (t.lowestBufferedAncestorOr b.hash) b.hash)
  update : ∀ sched state attrs version status event,
    (t.onForkchoiceUpdated sched state attrs version).1 = .ok ⟨.withInvalid status, event⟩ →
    EntriesTell W t state.headBlockHash →
    (FollowsRule W t state.headBlockHash status.latestValidHash ↔
      LatestValidRight W t (t.lowestBufferedAncestorOr state.headBlockHash) state.headBlockHash)

theorem EntriesKnown.answers (hentries : EntriesKnown W t) (hwf : Wf W t) (hzero : W.header 0 = none) :
    AnswersFollowRule W t where
  payload sched payload mw b status event hb hknows hans hinvalid htold := by
    have hj := onNewPayload_judges t sched mw hb
    rw [hans] at hj
    exact hj.latestValid_iff hinvalid hwf hzero hentries hknows (payloadCheck_descends hwf hknows) htold
  downloaded sched b witness status event hknows hans hinvalid htold := by
    have hj := onDownloadedBlock_judges t sched b witness
    rw [hans] at hj
    exact hj.latestValid_iff hinvalid hwf hzero hentries hknows (lowestBufferedAncestorOr_descends hwf b.hash) htold
  update sched state attrs version status event hans htell := by
    obtain ⟨header, hh, rfl⟩ := onForkchoiceUpdated_invalid hans
    unfold LatestValidRight
    rw [hh]
    have hentry := lookupInvalid_some hh
    have hlowest := lowestBufferedAncestorOr_descends hwf state.headBlockHash
    have hdescends := hlowest.trans (hentries _ header hentry).1
    obtain ⟨q, hq⟩ : ∃ q, W.Parent state.headBlockHash q := by
      rcases Relation.ReflTransGen.cases_head hdescends with heq | ⟨q, hq, -⟩
      · exact ⟨header.parent, heq ▸ (hentries _ header hentry).2⟩
      · exact ⟨q, hq⟩
    exact rejected_rule_iff hwf hzero hentries hq hlowest hentry htell

/-- **The latest valid hash.** In every run, where no block has the zero hash: for every payload, downloaded block and
forkchoice update that is INVALID, and for which the entries tell, the latest valid hash follows the documented rule in
exactly these cases. -/
theorem runs_latest_valid_iff (W : World) (hzero : W.header 0 = none) (database : RessDatabase) (ops : List (Op E))
    (hops : ∀ op ∈ ops, OpKnown W op) :
    AnswersFollowRule W (Run.run step (launch E database W.genesis) ops) := by
  have hstart : CallsKnown W (launch E database W.genesis) := by
    intro call hmem
    cases hmem
  have hknown : Run.AllSteps step (fun _ op => OpKnown W op) (launch E database W.genesis) ops :=
    Run.allSteps_of_mem hops _
  have hrun := Run.run_invariant (I := fun t => Wf W t ∧ CallsKnown W t)
    (fun _ _ h hok => ⟨h.1.step hok, h.2.step h.1 hok⟩) ⟨wf_launch W database, hstart⟩ hknown
  exact ((runs_blame W database ops hops).1.entriesKnown hrun.2).answers hrun.1 hzero

/-- block 1 has failed with a junk witness -/
def oneFailed : EngineTree smallEnv := smallTree [smallPayload (Chain.mainBlock 1) junkWitness]

theorem oneFailed_entry {k : B256} {x : BlockWithParent} (hx : oneFailed.invalidHeader k = some x) :
    k = 2 ∧ x = (Chain.mainBlock 1).blockWithParent := by
  have hkeys : (smallEnv.cache.entries oneFailed.invalidHeaders).keys = {2} := by decide +kernel
  have hget : oneFailed.invalidHeader 2 = some (Chain.mainBlock 1).blockWithParent := by decide +kernel
  have hk : k ∈ (smallEnv.cache.entries oneFailed.invalidHeaders).keys := FMap.mem_keys_of_get hx
  rw [hkeys, Finset.mem_singleton] at hk
  subst hk
  exact ⟨rfl, Option.some.inj (hx.symm.trans hget)⟩

/-- genesis is not an ancestor of the block that failed -/
theorem oneFailed_genesis : ¬ KnownInvalid Chain.twoBranches oneFailed 1 := by
  rintro ⟨k, x, hx, hdescends⟩
  obtain ⟨-, rfl⟩ := oneFailed_entry hx
  rcases Relation.ReflTransGen.cases_head hdescends with heq | ⟨p, ⟨y, hy, rfl⟩, hrest⟩
  · exact absurd heq (by decide)
  · cases (show Chain.twoBranches.header 1 = some (Chain.mainBlock 0).toSealedHeader by decide).symm.trans hy
    rcases Relation.ReflTransGen.cases_head hrest with heq | ⟨p, ⟨y, hy, -⟩, -⟩
    · exact absurd heq (by decide)
    · cases (show Chain.twoBranches.header 0 = none by decide).symm.trans hy

theorem oneFailed_tells : EntriesTell Chain.twoBranches oneFailed 3 := by
  refine ⟨fun a _ hs => ?_, fun k x _ hx hknown => ?_, fun hashes k x _ hx _ => ?_⟩
  · have hkeys : oneFailed.provider.chainState.blocksByHash.keys = {1} := by decide +kernel
    obtain ⟨b, hb⟩ := hs
    have ha := FMap.mem_keys_of_get hb
    rw [hkeys, Finset.mem_singleton] at ha
    rw [ha]
    exact oneFailed_genesis
  · obtain ⟨-, rfl⟩ := oneFailed_entry hx
    exact absurd hknown oneFailed_genesis
  · -- lookups leave the small cache as it is
    have hsame : ∀ (hashes : List B256) (cache : smallEnv.cache.Cache), lookedUp cache hashes = cache := by
      intro hashes cache
      induction hashes with
      | nil => rfl
      | cons hash hashes ih => exact ih
    rw [hsame]
    exact hx

/-- block 2 above it is rejected, with the hash of genesis -/
theorem runs_latest_valid_junk :
    (oneFailed.onNewPayload StateRoot.sortedSchedule (Chain.mainBlock 2, none) (some smallWitness)).1 =
        .ok ⟨⟨.invalid .linksToRejectedPayload, some 1⟩, none⟩ ∧
      FollowsRule Chain.twoBranches oneFailed (Chain.mainBlock 2).hash (some 1) := by
  have hknown : ∀ op ∈ [smallPayload (Chain.mainBlock 1) junkWitness], OpKnown Chain.twoBranches op := by
    intro op hop
    rw [List.mem_singleton.1 hop]
    exact smallPayload_known (Chain.mainBlock_knows (by omega)) _
  have hanswer : (oneFailed.onNewPayload StateRoot.sortedSchedule (Chain.mainBlock 2, none) (some smallWitness)).1 =
      .ok ⟨⟨.invalid .linksToRejectedPayload, some 1⟩, none⟩ := by decide +kernel
  have hlookup : oneFailed.lookupInvalid (oneFailed.payloadCheck (Chain.mainBlock 2)) =
      some (Chain.mainBlock 1).blockWithParent := by decide +kernel
  refine ⟨hanswer, ((runs_latest_valid_iff Chain.twoBranches (by decide) ⟨∅, none, none⟩
    [smallPayload (Chain.mainBlock 1) junkWitness] hknown).payload StateRoot.sortedSchedule (Chain.mainBlock 2, none)
      (some smallWitness) (Chain.mainBlock 2) _ none rfl (Chain.mainBlock_knows (by omega)) hanswer ⟨_, rfl⟩ ?_).2 ?_⟩
  · unfold Told
    change match oneFailed.lookupInvalid (oneFailed.payloadCheck (Chain.mainBlock 2)) with
      | some _ => EntriesTell Chain.twoBranches oneFailed 3
      | none => FailureTold Chain.twoBranches oneFailed 3 2
    rw [hlookup]
    exact oneFailed_tells
  · unfold LatestValidRight
    change match oneFailed.lookupInvalid (oneFailed.payloadCheck (Chain.mainBlock 2)) with
      | some header => ∃ a, LatestValid Chain.twoBranches oneFailed 3 a ∧ (oneFailed.IsPow a → a = header.parent)
      | none => ∀ a, LatestValid Chain.twoBranches oneFailed 3 a → ¬ oneFailed.IsPow a
    rw [hlookup]
    refine ⟨1, Ancestry.First.above (p := 2) ⟨_, Chain.mainBlock_knows (n := 2) (by omega), rfl⟩ ?_ ?_
      (Ancestry.First.parent ⟨_, Chain.mainBlock_knows (n := 1) (by omega), rfl⟩ ?_), fun _ => rfl⟩
    · exact ChainState.sealedHeader_none.1 (by decide +kernel)
    · exact ⟨2, (Chain.mainBlock 1).blockWithParent, by decide +kernel, Relation.ReflTransGen.refl⟩
    · exact ChainState.sealedHeader_isSome.1 (by decide +kernel)

/-- genesis as a proof-of-work block -/
def powGenesis : Block := { Chain.mainBlock 0 with difficulty := 1 }

/-- a proof-of-work block and one block above it -/
def powWorld : World where
  header h :=
    if h = 1 then some powGenesis.toSealedHeader
    else if h = 2 then some (Chain.mainBlock 1).toSealedHeader
    else none
  genesis := powGenesis
  hash_eq := by
    intro h x hx
    split_ifs at hx with h1 h2
    · rw [h1, ← Option.some.inj hx]
      rfl
    · rw [h2, ← Option.some.inj hx]
      rfl
  genesis_known := by decide
  genesis_number := rfl
  genesis_root := by decide

/-- **The parent is a proof-of-work block.** Block 1 above it fails with a junk witness. The parent's hash is answered,
and the zero hash is due. -/
theorem latest_valid_pow :
    let t := launch smallEnv ⟨∅, none, none⟩ powWorld.genesis
    let b := Chain.mainBlock 1
    powWorld.header 0 = none ∧ powWorld.Knows b.toSealedHeader ∧
      (t.onNewPayload StateRoot.sortedSchedule (b, none) (some junkWitness)).1 =
        .ok ⟨⟨.invalid (.insertBlock "no account"), some powGenesis.hash⟩, none⟩ ∧
      LatestValid powWorld t b.hash powGenesis.hash ∧ t.IsPow powGenesis.hash ∧
      ¬ FollowsRule powWorld t b.hash (some powGenesis.hash) := by
  intro t b
  have hparent : powWorld.Parent b.hash powGenesis.hash := ⟨b.toSealedHeader, by decide, rfl⟩
  have hstored : t.Stored powGenesis.hash := ChainState.sealedHeader_isSome.1 (by decide +kernel)
  have hpow : t.IsPow powGenesis.hash := ⟨powGenesis.toSealedHeader, by decide +kernel, by decide⟩
  have hknows : powWorld.header b.hash = some b.toSealedHeader := by decide
  refine ⟨by decide, hknows, by decide +kernel, Ancestry.First.parent hparent hstored, hpow, fun h => ?_⟩
  have hzero := h.pow _ (Ancestry.First.parent hparent hstored) hpow
  exact absurd (Option.some.inj hzero) (by decide)

/-- block 1 of the other branch fails with a junk witness; then the main branch is finalized up to its block 1 -/
def prunedBelow : List (Op smallEnv) :=
  [smallPayload (Chain.sideBlock 1) junkWitness, smallPayload (Chain.mainBlock 1) smallWitness,
    smallPayload (Chain.mainBlock 2) smallWitness, smallUpdate ⟨3, 0, 2⟩]

/-- **Nothing can be determined.** Block 2 of the other branch is rejected on account of block 1. Genesis, the parent of
that one, is not in the store any more. The zero hash is answered, and none is due. -/
theorem latest_valid_undetermined :
    let t := smallTree prunedBelow
    let b := Chain.sideBlock 2
    (t.onNewPayload StateRoot.sortedSchedule (b, none) (some smallWitness)).1 =
        .ok ⟨⟨.invalid .linksToRejectedPayload, some 0⟩, none⟩ ∧
      (∀ a, ¬ LatestValid Chain.twoBranches t b.hash a) ∧
      ¬ FollowsRule Chain.twoBranches t b.hash (some 0) := by
  intro t b
  -- neither of the three ancestors is in the store, and genesis has no parent
  have hstep : ∀ d p a, Chain.twoBranches.Parent d p → ¬ t.Stored p → LatestValid Chain.twoBranches t d a →
      LatestValid Chain.twoBranches t p a := by
    intro d p a hdp hns ha
    cases ha with
    | parent hp' hs => exact absurd (World.parent_fun _ _ _ hp' hdp ▸ hs) hns
    | above hp' _ _ h => exact World.parent_fun _ _ _ hp' hdp ▸ h
  have hnone : ∀ a, ¬ LatestValid Chain.twoBranches t b.hash a := by
    intro a ha
    have hside := hstep b.hash (Chain.sideBlock 1).hash a ⟨_, Chain.sideBlock_knows.2, rfl⟩
      (ChainState.sealedHeader_none.1 (by decide +kernel)) ha
    have hgenesis := hstep _ (Chain.mainBlock 0).hash a ⟨_, Chain.sideBlock_knows.1, rfl⟩
      (ChainState.sealedHeader_none.1 (by decide +kernel)) hside
    have hroot := hstep _ 0 a ⟨_, Chain.twoBranches.genesis_known, rfl⟩
      (ChainState.sealedHeader_none.1 (by decide +kernel)) hgenesis
    have hzero : Chain.twoBranches.header 0 = none := by decide
    cases hroot with
    | parent hp =>
      obtain ⟨x, hx, -⟩ := hp
      cases hzero.symm.trans hx
    | above hp =>
      obtain ⟨x, hx, -⟩ := hp
      cases hzero.symm.trans hx
  refine ⟨by decide +kernel, hnone, fun h => ?_⟩
  cases h.undetermined hnone

end EngineTree

end Ress
