/-
The block store over whole runs, and what finalization removes from it (`crates/provider/src/chain_state.rs`).

The number index and the witnesses follow the stored blocks (`WellIndexed`): every operation keeps it, as long as a hash
stands for one block. The two loops of `remove_blocks_on_finalized` pop from the front of ordered maps, so they remove
what is below the bound and nothing else (`popBlocks_get`, `popBlocks_index`, `popCanonicalHashes_get`).

- `finalization_prunes_exactly`: in every state that a run reaches, the index is exact, and finalization at a stored
  block removes exactly the blocks below it with their witnesses, and the canonical hashes below its number less 256.
-/
import Ress.Provider.ChainState
import Ress.Lib.Run

namespace Ress

namespace ChainState

variable {s : ChainState}

/-! ## Popping blocks -/

/-- the hash is indexed under a number below this one -/
def IndexedBelow (s : ChainState) (number : ℕ) (h : B256) : Prop :=
  ∃ n hs, n < number ∧ s.blockHashesByNumber.get n = some hs ∧ h ∈ hs

/-- popping leaves exactly the index entries from `number` on -/
theorem popBlocks_index (number fuel : ℕ) (s : ChainState) (hfuel : s.blockHashesByNumber.keys.card ≤ fuel) (n : ℕ) :
    (popBlocks number fuel s).blockHashesByNumber.get n =
      if n < number then none else s.blockHashesByNumber.get n := by
  induction fuel generalizing s with
  | zero =>
    have hempty : s.blockHashesByNumber.keys = ∅ := by simpa using hfuel
    have hnone : s.blockHashesByNumber.get n = none := FMap.get_of_notMem_keys (by simp [hempty])
    simp [popBlocks, hnone]
  | succ fuel ih =>
    simp only [popBlocks]
    split
    · rename_i hfirst
      have hnone : s.blockHashesByNumber.get n = none := FMap.get_of_notMem_keys (by simp [FMap.firstKey_none hfirst])
      simp [hnone]
    · rename_i k hfirst
      obtain ⟨hk, hmin⟩ := FMap.firstKey_some hfirst
      have hcard := Finset.card_erase_of_mem hk
      split_ifs with hlt hn hn
      · rw [ih _ (by simp only [FMap.keys_del]; omega), if_pos hn]
      · rw [ih _ (by simp only [FMap.keys_del]; omega), if_neg hn, FMap.get_del_ne _ (by omega)]
      · cases hg : s.blockHashesByNumber.get n with
        | none => rfl
        | some h => have := hmin n (FMap.mem_keys_of_get hg); omega
      · rfl

/-- one turn of the loop -/
def popNumber (s : ChainState) (number : ℕ) : ChainState :=
  { s with
    blockHashesByNumber := s.blockHashesByNumber.del number
    blocksByHash := s.blocksByHash.delAll ((s.blockHashesByNumber.get number).getD ∅)
    witnesses := s.witnesses.delAll ((s.blockHashesByNumber.get number).getD ∅) }

theorem indexedBelow_popNumber {k number : ℕ} (hk : k < number) {h : B256} :
    s.IndexedBelow number h ↔
      h ∈ (s.blockHashesByNumber.get k).getD ∅ ∨ (s.popNumber k).IndexedBelow number h := by
  constructor
  · rintro ⟨n, hs, hn, hget, hmem⟩
    by_cases hnk : n = k
    · subst hnk
      exact Or.inl (by rw [hget]; exact hmem)
    · exact Or.inr ⟨n, hs, hn, (FMap.get_del_ne _ hnk).trans hget, hmem⟩
  · rintro (hmem | ⟨n, hs, hn, hget, hmem⟩)
    · cases hget : s.blockHashesByNumber.get k with
      | none => simp [hget] at hmem
      | some hs => exact ⟨k, hs, hk, hget, by simpa [hget] using hmem⟩
    · exact ⟨n, hs, hn, (FMap.get_del_some hget).2, hmem⟩

open Classical in
/-- **Popping blocks** removes a block and its witness exactly where the hash is indexed below `number`. -/
theorem popBlocks_get (number fuel : ℕ) (s : ChainState) (hfuel : s.blockHashesByNumber.keys.card ≤ fuel) (h : B256) :
    (popBlocks number fuel s).blocksByHash.get h =
        (if s.IndexedBelow number h then none else s.blocksByHash.get h) ∧
      (popBlocks number fuel s).witnesses.get h =
        if s.IndexedBelow number h then none else s.witnesses.get h := by
  induction fuel generalizing s with
  | zero =>
    have hempty : s.blockHashesByNumber.keys = ∅ := by simpa using hfuel
    have hnot : ¬s.IndexedBelow number h := by
      rintro ⟨n, hs, -, hget, -⟩
      simpa [hempty] using FMap.mem_keys_of_get hget
    rw [if_neg hnot, if_neg hnot]
    exact ⟨rfl, rfl⟩
  | succ fuel ih =>
    simp only [popBlocks]
    cases hfirst : s.blockHashesByNumber.firstKey with
    | none =>
      have hnot : ¬s.IndexedBelow number h := by
        rintro ⟨n, hs, -, hget, -⟩
        simpa [FMap.firstKey_none hfirst] using FMap.mem_keys_of_get hget
      simp only [if_neg hnot, and_self]
    | some k =>
      obtain ⟨hk, hmin⟩ := FMap.firstKey_some hfirst
      have hcard := Finset.card_erase_of_mem hk
      simp only
      split_ifs with hlt hbelow hbelow
      · -- the hash goes now, or by a later pop
        obtain ⟨hblocks, hwitnesses⟩ := ih (s.popNumber k) (by simp only [popNumber, FMap.keys_del]; omega)
        change (popBlocks number fuel (s.popNumber k)).blocksByHash.get h = none ∧
          (popBlocks number fuel (s.popNumber k)).witnesses.get h = none
        rw [hblocks, hwitnesses]
        rcases (indexedBelow_popNumber hlt).1 hbelow with hmem | hlater
        · simp only [popNumber, FMap.get_delAll, if_pos hmem, ite_self, and_self]
        · simp only [if_pos hlater, and_self]
      · obtain ⟨hblocks, hwitnesses⟩ := ih (s.popNumber k) (by simp only [popNumber, FMap.keys_del]; omega)
        rw [indexedBelow_popNumber hlt, not_or] at hbelow
        rw [if_neg hbelow.2] at hblocks hwitnesses
        simp only [popNumber, FMap.get_delAll, if_neg hbelow.1] at hblocks hwitnesses
        exact ⟨hblocks, hwitnesses⟩
      · obtain ⟨n, hs, hn, hget, -⟩ := hbelow
        have := hmin n (FMap.mem_keys_of_get hget)
        omega
      · exact ⟨rfl, rfl⟩

theorem popCanonicalHashes_witnesses (number fuel : ℕ) (s : ChainState) :
    (popCanonicalHashes number fuel s).witnesses = s.witnesses := by
  induction fuel generalizing s with
  | zero => rfl
  | succ fuel ih =>
    simp only [popCanonicalHashes]
    split
    · rfl
    · split_ifs
      · exact ih _
      · rfl

/-! ## The index over runs -/

/-- the hashes of the number index at a number -/
def hashesAt (s : ChainState) (number : ℕ) : Finset B256 := (s.blockHashesByNumber.get number).getD ∅

/-- the index has exactly the stored blocks, and only stored blocks have a witness -/
structure WellIndexed (s : ChainState) : Prop where
  hash_eq : ∀ h b, s.blocksByHash.get h = some b → b.hash = h
  index : ∀ n h, h ∈ s.hashesAt n ↔ ∃ b, s.blocksByHash.get h = some b ∧ b.number = n
  witness : ∀ h w, s.witnesses.get h = some w → s.Stored h

/-- what finalization leaves, the finalized block being stored -/
structure PrunedExactly (finalized : Block) (s s' : ChainState) : Prop where
  blocks : ∀ h b, s'.blocksByHash.get h = some b ↔ s.blocksByHash.get h = some b ∧ finalized.number ≤ b.number
  witnesses : ∀ h w, s'.witnesses.get h = some w ↔
    s.witnesses.get h = some w ∧ ∃ b, s.blocksByHash.get h = some b ∧ finalized.number ≤ b.number
  canonical : ∀ n h, s'.canonicalHashesByNumber.get n = some h ↔
    s.canonicalHashesByNumber.get n = some h ∧ finalized.number - 256 ≤ n
  finalized_kept : s'.blocksByHash.get finalized.hash = some finalized

theorem WellIndexed.empty : WellIndexed empty where
  hash_eq h b hb := by simp [ChainState.empty] at hb
  index n h := by simp [hashesAt, ChainState.empty]
  witness h w hw := by simp [ChainState.empty] at hw

theorem WellIndexed.indexedBelow_iff (hs : s.WellIndexed) {number : ℕ} {h : B256} :
    s.IndexedBelow number h ↔ ∃ b, s.blocksByHash.get h = some b ∧ b.number < number := by
  constructor
  · rintro ⟨n, hashes, hn, hget, hmem⟩
    obtain ⟨b, hb, rfl⟩ := (hs.index n h).1 (by rw [hashesAt, hget]; exact hmem)
    exact ⟨b, hb, hn⟩
  · rintro ⟨b, hb, hlt⟩
    have hmem := (hs.index b.number h).2 ⟨b, hb, rfl⟩
    rw [hashesAt] at hmem
    cases hget : s.blockHashesByNumber.get b.number with
    | none => simp [hget] at hmem
    | some hashes => exact ⟨b.number, hashes, hlt, hget, by simpa [hget] using hmem⟩

/-- **Inserting** a block keeps the index, where its hash stands for no other block. -/
theorem WellIndexed.insertBlock (hs : s.WellIndexed) {block : Block}
    (hdet : ∀ b, s.blocksByHash.get block.hash = some b → b = block) (maybeWitness : Option (List Bytes)) :
    (s.insertBlock block maybeWitness).WellIndexed where
  hash_eq h b hb := by
    simp only [ChainState.insertBlock, FMap.get_set] at hb
    split_ifs at hb with hh
    · cases hb
      exact hh.symm
    · exact hs.hash_eq h b hb
  index n h := by
    have hold := hs.index n h
    simp only [hashesAt] at hold
    simp only [hashesAt, ChainState.insertBlock, FMap.get_set]
    by_cases hh : h = block.hash
    · subst hh
      simp only [if_true, Option.some.injEq, exists_eq_left']
      by_cases hn : n = block.number
      · simp [hn]
      · rw [if_neg hn, hold]
        refine iff_of_false ?_ fun he => hn he.symm
        rintro ⟨b, hb, hbn⟩
        exact hn (by rw [← hbn, hdet b hb])
    · simp only [if_neg hh]
      by_cases hn : n = block.number
      · subst hn
        rw [if_pos rfl, Option.getD_some, Finset.mem_insert, or_iff_right hh]
        exact hold
      · rw [if_neg hn]
        exact hold
  witness h w hw := by
    rw [stored_insertBlock]
    cases maybeWitness with
    | none => exact Or.inr (hs.witness h w hw)
    | some witness =>
      simp only [ChainState.insertBlock, FMap.get_set] at hw
      split_ifs at hw with hh
      · exact Or.inl hh
      · exact Or.inr (hs.witness h w hw)

/-- **Finalization prunes exactly**, at a stored block. -/
theorem WellIndexed.removeBlocksOnFinalized (hs : s.WellIndexed) {hash : B256} {finalized : Block}
    (hf : s.blocksByHash.get hash = some finalized) :
    PrunedExactly finalized s (s.removeBlocksOnFinalized hash) := by
  have hget := popBlocks_get finalized.number s.blockHashesByNumber.keys.card s le_rfl
  have hcanonical := popCanonicalHashes_get (finalized.number - 256) _
    (popBlocks finalized.number s.blockHashesByNumber.keys.card s) le_rfl
  have hsame := (popBlocks_pruned finalized.number s.blockHashesByNumber.keys.card s).canonical
  obtain ⟨hblocks, -⟩ := popCanonicalHashes_frame (finalized.number - 256)
    (popBlocks finalized.number s.blockHashesByNumber.keys.card s).canonicalHashesByNumber.keys.card
    (popBlocks finalized.number s.blockHashesByNumber.keys.card s)
  have hwitnesses := popCanonicalHashes_witnesses (finalized.number - 256)
    (popBlocks finalized.number s.blockHashesByNumber.keys.card s).canonicalHashesByNumber.keys.card
    (popBlocks finalized.number s.blockHashesByNumber.keys.card s)
  simp only [ChainState.removeBlocksOnFinalized, hf]
  have hkept : ∀ h b, (popBlocks finalized.number s.blockHashesByNumber.keys.card s).blocksByHash.get h = some b ↔
      s.blocksByHash.get h = some b ∧ finalized.number ≤ b.number := by
    intro h b
    rw [(hget h).1]
    split_ifs with hbelow
    · obtain ⟨b', hb', hlt⟩ := hs.indexedBelow_iff.1 hbelow
      refine iff_of_false (by simp) ?_
      rintro ⟨hb, hle⟩
      rw [hb] at hb'
      cases hb'
      omega
    · refine ⟨fun hb => ⟨hb, ?_⟩, And.left⟩
      by_contra hlt
      exact hbelow (hs.indexedBelow_iff.2 ⟨b, hb, by omega⟩)
  refine ⟨fun h b => ?_, fun h w => ?_, fun n h => ?_, ?_⟩
  · rw [hblocks]
    exact hkept h b
  · rw [hwitnesses, (hget h).2]
    split_ifs with hbelow
    · obtain ⟨b', hb', hlt⟩ := hs.indexedBelow_iff.1 hbelow
      refine iff_of_false (by simp) ?_
      rintro ⟨-, b, hb, hle⟩
      rw [hb] at hb'
      cases hb'
      omega
    · refine ⟨fun hw => ⟨hw, ?_⟩, And.left⟩
      obtain ⟨b, hb⟩ := hs.witness h w hw
      refine ⟨b, hb, ?_⟩
      by_contra hlt
      exact hbelow (hs.indexedBelow_iff.2 ⟨b, hb, by omega⟩)
  · rw [hcanonical n, hsame]
    split_ifs with hn
    · exact iff_of_false (by simp) fun he => by omega
    · exact (and_iff_left (by omega)).symm
  · rw [hblocks, hs.hash_eq hash finalized hf]
    exact (hkept hash finalized).2 ⟨hf, le_rfl⟩

theorem PrunedExactly.wellIndexed {finalized : Block} {s' : ChainState} (h : PrunedExactly finalized s s')
    (hs : s.WellIndexed)
    (hindex : ∀ n, s'.blockHashesByNumber.get n =
      if n < finalized.number then none else s.blockHashesByNumber.get n) : s'.WellIndexed where
  hash_eq x b hb := hs.hash_eq x b ((h.blocks x b).1 hb).1
  index n x := by
    simp only [hashesAt, hindex, h.blocks]
    split_ifs with hn
    · refine iff_of_false (by simp) ?_
      rintro ⟨b, ⟨-, hle⟩, rfl⟩
      omega
    · refine (hs.index n x).trans ⟨?_, ?_⟩
      · rintro ⟨b, hb, rfl⟩
        exact ⟨b, ⟨hb, by omega⟩, rfl⟩
      · rintro ⟨b, ⟨hb, -⟩, hbn⟩
        exact ⟨b, hb, hbn⟩
  witness x w hw := by
    obtain ⟨-, b, hb, hle⟩ := (h.witnesses x w).1 hw
    exact ⟨b, (h.blocks x b).2 ⟨hb, hle⟩⟩

/-- the operations on the chain state -/
inductive Op where
  | insertBlock (block : Block) (maybeWitness : Option (List Bytes))
  | insertCanonicalHash (number : ℕ) (hash : B256)
  | removeCanonicalHash (number : ℕ) (hash : B256)
  | removeBlocksOnFinalized (finalizedHash : B256)

def step (s : ChainState) : Op → ChainState
  | .insertBlock block maybeWitness => s.insertBlock block maybeWitness
  | .insertCanonicalHash number hash => s.insertCanonicalHash number hash
  | .removeCanonicalHash number hash => s.removeCanonicalHash number hash
  | .removeBlocksOnFinalized finalizedHash => s.removeBlocksOnFinalized finalizedHash

/-- among the blocks that are inserted, the hash determines the block -/
def HashDetermines (ops : List Op) : Prop :=
  ∀ b w b' w', .insertBlock b w ∈ ops → .insertBlock b' w' ∈ ops → b.hash = b'.hash → b = b'

/-- the index is exact, and the stored blocks come from these operations -/
structure Kept (ops : List Op) (s : ChainState) : Prop where
  indexed : s.WellIndexed
  inserted : ∀ h b, s.blocksByHash.get h = some b → ∃ w, .insertBlock b w ∈ ops

theorem Kept.step {ops : List Op} (hdet : HashDetermines ops) (s : ChainState) (op : Op) (h : Kept ops s)
    (hop : op ∈ ops) : Kept ops (s.step op) := by
  cases op with
  | insertBlock block maybeWitness =>
    refine ⟨h.indexed.insertBlock (fun b hb => ?_) maybeWitness, fun x b hb => ?_⟩
    · obtain ⟨w, hw⟩ := h.inserted _ b hb
      exact hdet b w block maybeWitness hw hop (h.indexed.hash_eq _ b hb)
    · simp only [ChainState.step, ChainState.insertBlock, FMap.get_set] at hb
      split_ifs at hb with hh
      · cases hb
        exact ⟨maybeWitness, hop⟩
      · exact h.inserted x b hb
  | insertCanonicalHash number hash => exact ⟨⟨h.indexed.hash_eq, h.indexed.index, h.indexed.witness⟩, h.inserted⟩
  | removeCanonicalHash number hash =>
    simp only [ChainState.step, ChainState.removeCanonicalHash]
    split_ifs
    · exact ⟨⟨h.indexed.hash_eq, h.indexed.index, h.indexed.witness⟩, h.inserted⟩
    · exact h
  | removeBlocksOnFinalized finalizedHash =>
    simp only [ChainState.step]
    cases hf : s.blocksByHash.get finalizedHash with
    | none =>
      simp only [ChainState.removeBlocksOnFinalized, hf]
      exact h
    | some finalized =>
      have hpruned := h.indexed.removeBlocksOnFinalized hf
      refine ⟨hpruned.wellIndexed h.indexed fun n => ?_, fun x b hb => h.inserted x b ((hpruned.blocks x b).1 hb).1⟩
      have hindex := (popCanonicalHashes_frame (finalized.number - 256)
        (popBlocks finalized.number s.blockHashesByNumber.keys.card s).canonicalHashesByNumber.keys.card
        (popBlocks finalized.number s.blockHashesByNumber.keys.card s)).2
      simp only [ChainState.removeBlocksOnFinalized, hf]
      rw [hindex, popBlocks_index _ _ s le_rfl]

/-- **Finalization prunes exactly and keeps the store indexed**, in every state that any sequence of the operations
reaches. -/
theorem finalization_prunes_exactly {ops : List Op} (hdet : HashDetermines ops) :
    (Run.run step empty ops).WellIndexed ∧
      (∀ hash, ¬(Run.run step empty ops).Stored hash →
        (Run.run step empty ops).removeBlocksOnFinalized hash = Run.run step empty ops) ∧
      ∀ hash finalized, (Run.run step empty ops).blocksByHash.get hash = some finalized →
        PrunedExactly finalized (Run.run step empty ops) ((Run.run step empty ops).removeBlocksOnFinalized hash) := by
  have hkept : Kept ops (Run.run step empty ops) := by
    apply Run.run_invariant (Kept.step hdet) _ (Run.allSteps_of_mem (fun op hop => hop) empty)
    exact ⟨WellIndexed.empty, fun h b hb => by simp [ChainState.empty] at hb⟩
  refine ⟨hkept.indexed, fun hash hnot => ?_, fun hash finalized hf => hkept.indexed.removeBlocksOnFinalized hf⟩
  have hnone : (Run.run step empty ops).blocksByHash.get hash = none := by
    by_contra hne
    exact hnot (Option.ne_none_iff_exists'.1 hne)
  simp only [ChainState.removeBlocksOnFinalized, hnone]

/-- two forks at height 1, of which neither is left when block 2 on the first one is finalized -/
def forkOps : List Op :=
  [.insertBlock ⟨⟨⟨1, 1, 0, 0, []⟩, 2⟩, ⟨[], []⟩⟩ (some []), .insertBlock ⟨⟨⟨1, 1, 0, 0, []⟩, 12⟩, ⟨[], []⟩⟩ none,
    .insertBlock ⟨⟨⟨2, 2, 0, 0, []⟩, 3⟩, ⟨[], []⟩⟩ (some []), .insertCanonicalHash 1 2, .insertCanonicalHash 2 3]

theorem finalization_prunes_exactly_fork :
    PrunedExactly ⟨⟨⟨2, 2, 0, 0, []⟩, 3⟩, ⟨[], []⟩⟩ (Run.run step empty forkOps)
      ((Run.run step empty forkOps).removeBlocksOnFinalized 3) := by
  have hdet : HashDetermines forkOps := by
    intro b w b' w' hb hb' hhash
    simp only [forkOps, List.mem_cons, Op.insertBlock.injEq, reduceCtorEq, List.not_mem_nil, or_false] at hb hb'
    rcases hb with ⟨rfl, -⟩ | ⟨rfl, -⟩ | ⟨rfl, -⟩ <;> rcases hb' with ⟨rfl, -⟩ | ⟨rfl, -⟩ | ⟨rfl, -⟩ <;>
      first | rfl | exact absurd hhash (by decide)
  exact (finalization_prunes_exactly hdet).2.2 3 _ (by decide +kernel)

end ChainState

end Ress
