/-
In-memory chain state (`crates/provider/src/chain_state.rs`): all validated blocks, and the canonical hash of each height.

- `blockHash` walks the stored parents of a block and, where these end, reads the canonical map, if the block it ended
  at is canonical there. The walk of the source is unbounded; here it has one step for each stored block and one more,
  which is enough when heights fall along it (`ancestorWalk_enough`).
- `removeBlocksOnFinalized` is two loops that pop the first key of an ordered map.

The lemmas say what each operation does to each map, for the invariants of the modules that use them.
-/
import Ress.Provider.Database

namespace Ress

structure ChainState where
  canonicalHashesByNumber : FMap ℕ B256
  blocksByHash : FMap B256 Block
  blockHashesByNumber : FMap ℕ (Finset B256)
  witnesses : FMap B256 (List Bytes)

namespace ChainState

def empty : ChainState := ⟨∅, ∅, ∅, ∅⟩

/-! ## Operations -/

def IsHashCanonical (s : ChainState) (hash : B256) : Prop :=
  ∃ n ∈ s.canonicalHashesByNumber.keys, s.canonicalHashesByNumber.get n = some hash

instance (s : ChainState) (hash : B256) : Decidable (s.IsHashCanonical hash) := by
  unfold IsHashCanonical; infer_instance

/-- the ancestor traversal of `block_hash`: the hash at `number`, or the first ancestor that is not stored -/
def ancestorWalk (blocks : FMap B256 Block) (number : ℕ) : ℕ → BlockNumHash → B256 ⊕ BlockNumHash
  | 0, ancestor => .inr ancestor
  | fuel + 1, ancestor =>
    match blocks.get ancestor.hash with
    | none => .inr ancestor
    | some block =>
      if block.number = number then .inl block.hash else ancestorWalk blocks number fuel block.parentNumHash

def blockHash (s : ChainState) (parent : BlockNumHash) (number : ℕ) : Option B256 :=
  match ancestorWalk s.blocksByHash number (s.blocksByHash.keys.card + 1) parent with
  | .inl hash => some hash
  | .inr ancestor =>
    -- all executed blocks are exhausted, the target block must be canonical
    if number ≤ ancestor.number ∧ s.canonicalHashesByNumber.get ancestor.number = some ancestor.hash then
      s.canonicalHashesByNumber.get number
    else none

def insertCanonicalHash (s : ChainState) (number : ℕ) (hash : B256) : ChainState :=
  { s with canonicalHashesByNumber := s.canonicalHashesByNumber.set number hash }

/-- remove the canonical hash of a number if it matches -/
def removeCanonicalHash (s : ChainState) (number : ℕ) (hash : B256) : ChainState :=
  if s.canonicalHashesByNumber.get number = some hash then
    { s with canonicalHashesByNumber := s.canonicalHashesByNumber.del number }
  else s

def blockNumber (s : ChainState) (hash : B256) : Option ℕ := (s.blocksByHash.get hash).map (·.number)

def sealedHeader (s : ChainState) (hash : B256) : Option SealedHeader :=
  (s.blocksByHash.get hash).map (·.toSealedHeader)

def insertBlock (s : ChainState) (block : Block) (maybeWitness : Option (List Bytes)) : ChainState :=
  { s with
    blockHashesByNumber :=
      s.blockHashesByNumber.set block.number (insert block.hash ((s.blockHashesByNumber.get block.number).getD ∅))
    blocksByHash := s.blocksByHash.set block.hash block
    witnesses :=
      match maybeWitness with
      | some witness => s.witnesses.set block.hash witness
      | none => s.witnesses }

/-- the body of `on_chain_update`: the old chain's canonical hashes are removed where they match, then the new chain's
are written -/
def onChainUpdate (s : ChainState) (new old : List SealedHeader) : ChainState :=
  new.foldl (fun s header => s.insertCanonicalHash header.number header.hash)
    (old.foldl (fun s header => s.removeCanonicalHash header.number header.hash) s)

/-- the first loop of `remove_blocks_on_finalized`: pop the first number while it is below the finalized one -/
def popBlocks (finalizedNumber : ℕ) : ℕ → ChainState → ChainState
  | 0, s => s
  | fuel + 1, s =>
    match s.blockHashesByNumber.firstKey with
    | none => s
    | some number =>
      if number < finalizedNumber then
        let blockHashes := (s.blockHashesByNumber.get number).getD ∅
        popBlocks finalizedNumber fuel
          { s with
            blockHashesByNumber := s.blockHashesByNumber.del number
            blocksByHash := s.blocksByHash.delAll blockHashes
            witnesses := s.witnesses.delAll blockHashes }
      else s

/-- the second loop: pop the first canonical hash while its number is below `lastBlockHashNumber` -/
def popCanonicalHashes (lastBlockHashNumber : ℕ) : ℕ → ChainState → ChainState
  | 0, s => s
  | fuel + 1, s =>
    match s.canonicalHashesByNumber.firstKey with
    | none => s
    | some number =>
      if number < lastBlockHashNumber then
        popCanonicalHashes lastBlockHashNumber fuel
          { s with canonicalHashesByNumber := s.canonicalHashesByNumber.del number }
      else s

/-- remove all blocks before finalized and all canonical hashes before `finalized.number - 256` -/
def removeBlocksOnFinalized (s : ChainState) (finalizedHash : B256) : ChainState :=
  match s.blocksByHash.get finalizedHash with
  | none => s
  | some finalized =>
    let s := popBlocks finalized.number s.blockHashesByNumber.keys.card s
    popCanonicalHashes (finalized.number - 256) s.canonicalHashesByNumber.keys.card s

/-! ## Lookups after each operation -/

/-- the block with this hash is in the store -/
def Stored (s : ChainState) (hash : B256) : Prop := ∃ b, s.blocksByHash.get hash = some b

theorem sealedHeader_some {s : ChainState} {hash : B256} {x : SealedHeader} :
    s.sealedHeader hash = some x ↔ ∃ b, s.blocksByHash.get hash = some b ∧ b.toSealedHeader = x := by
  simp [sealedHeader, Option.map_eq_some_iff]

theorem sealedHeader_none {s : ChainState} {hash : B256} : s.sealedHeader hash = none ↔ ¬ s.Stored hash := by
  simp only [sealedHeader, Stored]
  cases s.blocksByHash.get hash <;> simp

theorem sealedHeader_isSome {s : ChainState} {hash : B256} : (s.sealedHeader hash).isSome ↔ s.Stored hash := by
  simp only [sealedHeader, Stored]
  cases s.blocksByHash.get hash <;> simp

theorem isHashCanonical_iff {s : ChainState} {hash : B256} :
    s.IsHashCanonical hash ↔ ∃ n, s.canonicalHashesByNumber.get n = some hash :=
  ⟨fun ⟨n, _, h⟩ => ⟨n, h⟩, fun ⟨n, h⟩ => ⟨n, FMap.mem_keys_of_get h, h⟩⟩

theorem stored_insertBlock {s : ChainState} {b : Block} {w : Option (List Bytes)} {hash : B256} :
    (s.insertBlock b w).Stored hash ↔ hash = b.hash ∨ s.Stored hash := by
  simp only [Stored, insertBlock]
  simp only [FMap.get_set]
  by_cases h : hash = b.hash <;> simp [h]

/-- what popping blocks does to the store: a remaining block was there, and a block goes only if its hash was indexed
under a lower number -/
structure Pruned (number : ℕ) (s s' : ChainState) : Prop where
  canonical : s'.canonicalHashesByNumber = s.canonicalHashesByNumber
  sub : ∀ h b, s'.blocksByHash.get h = some b → s.blocksByHash.get h = some b
  keep : ∀ h b, s.blocksByHash.get h = some b →
    (∀ n hs, n < number → s.blockHashesByNumber.get n = some hs → h ∉ hs) → s'.blocksByHash.get h = some b
  index : ∀ n hs, s'.blockHashesByNumber.get n = some hs → s.blockHashesByNumber.get n = some hs

theorem popBlocks_pruned (number fuel : ℕ) (s : ChainState) : Pruned number s (popBlocks number fuel s) := by
  induction fuel generalizing s with
  | zero => exact ⟨rfl, fun _ _ h => h, fun _ _ h _ => h, fun _ _ h => h⟩
  | succ fuel ih =>
    simp only [popBlocks]
    split
    · exact ⟨rfl, fun _ _ h => h, fun _ _ h _ => h, fun _ _ h => h⟩
    · rename_i n hn
      split_ifs with hlt
      · have h := ih { s with
            blockHashesByNumber := s.blockHashesByNumber.del n
            blocksByHash := s.blocksByHash.delAll ((s.blockHashesByNumber.get n).getD ∅)
            witnesses := s.witnesses.delAll ((s.blockHashesByNumber.get n).getD ∅) }
        refine ⟨h.canonical, fun x b hb => ?_, fun x b hb hout => ?_, fun k hs hk => ?_⟩
        · exact (FMap.get_delAll_some (h.sub x b hb)).2
        · apply h.keep x b
          · have hx : x ∉ (s.blockHashesByNumber.get n).getD ∅ := by
              cases hg : s.blockHashesByNumber.get n with
              | none => simp
              | some hs => exact hout n hs hlt hg
            simpa [FMap.get_delAll, hx] using hb
          · intro m hs hm hget
            exact hout m hs hm (FMap.get_del_some hget).2
        · exact (FMap.get_del_some (h.index k hs hk)).2
      · exact ⟨rfl, fun _ _ h => h, fun _ _ h _ => h, fun _ _ h => h⟩

/-- popping canonical hashes leaves exactly the entries from `number` on -/
theorem popCanonicalHashes_get (number fuel : ℕ) (s : ChainState)
    (hfuel : s.canonicalHashesByNumber.keys.card ≤ fuel) (n : ℕ) :
    (popCanonicalHashes number fuel s).canonicalHashesByNumber.get n =
      if n < number then none else s.canonicalHashesByNumber.get n := by
  induction fuel generalizing s with
  | zero =>
    have hempty : s.canonicalHashesByNumber.keys = ∅ := by simpa using hfuel
    have hnone : s.canonicalHashesByNumber.get n = none := by
      cases hg : s.canonicalHashesByNumber.get n with
      | none => rfl
      | some h => have := FMap.mem_keys_of_get hg; simp [hempty] at this
    simp [popCanonicalHashes, hnone]
  | succ fuel ih =>
    simp only [popCanonicalHashes]
    split
    · rename_i hfirst
      have hempty := FMap.firstKey_none hfirst
      have hnone : s.canonicalHashesByNumber.get n = none := by
        cases hg : s.canonicalHashesByNumber.get n with
        | none => rfl
        | some h => have := FMap.mem_keys_of_get hg; simp [hempty] at this
      simp [hnone]
    · rename_i k hfirst
      obtain ⟨hk, hmin⟩ := FMap.firstKey_some hfirst
      split_ifs with hlt hn hn
      · rw [ih]
        · simp [hn]
        · have := Finset.card_erase_of_mem hk
          simp only [FMap.keys_del]; omega
      · rw [ih]
        · rw [if_neg hn, FMap.get_del_ne _ (by omega)]
        · have := Finset.card_erase_of_mem hk
          simp only [FMap.keys_del]; omega
      · cases hg : s.canonicalHashesByNumber.get n with
        | none => rfl
        | some h => have := hmin n (FMap.mem_keys_of_get hg); omega
      · rfl

theorem popCanonicalHashes_frame (number fuel : ℕ) (s : ChainState) :
    (popCanonicalHashes number fuel s).blocksByHash = s.blocksByHash ∧
      (popCanonicalHashes number fuel s).blockHashesByNumber = s.blockHashesByNumber := by
  induction fuel generalizing s with
  | zero => exact ⟨rfl, rfl⟩
  | succ fuel ih =>
    simp only [popCanonicalHashes]
    split
    · exact ⟨rfl, rfl⟩
    · split_ifs
      · exact ih _
      · exact ⟨rfl, rfl⟩

/-- what `remove_blocks_on_finalized` does, the finalized block being stored -/
structure Finalized (finalized : Block) (s s' : ChainState) : Prop where
  canonical : ∀ n, s'.canonicalHashesByNumber.get n =
    if n < finalized.number - 256 then none else s.canonicalHashesByNumber.get n
  sub : ∀ h b, s'.blocksByHash.get h = some b → s.blocksByHash.get h = some b
  keep : ∀ h b, s.blocksByHash.get h = some b →
    (∀ n hs, n < finalized.number → s.blockHashesByNumber.get n = some hs → h ∉ hs) →
    s'.blocksByHash.get h = some b
  index : ∀ n hs, s'.blockHashesByNumber.get n = some hs → s.blockHashesByNumber.get n = some hs

theorem removeBlocksOnFinalized_cases (s : ChainState) (hash : B256) :
    s.blocksByHash.get hash = none ∧ s.removeBlocksOnFinalized hash = s ∨
      ∃ b, s.blocksByHash.get hash = some b ∧ Finalized b s (s.removeBlocksOnFinalized hash) := by
  simp only [removeBlocksOnFinalized]
  cases hg : s.blocksByHash.get hash with
  | none => exact Or.inl ⟨rfl, rfl⟩
  | some b =>
    refine Or.inr ⟨b, rfl, ?_⟩
    have h1 := popBlocks_pruned b.number s.blockHashesByNumber.keys.card s
    have h2 := popCanonicalHashes_get (b.number - 256) _
      (popBlocks b.number s.blockHashesByNumber.keys.card s) le_rfl
    have h3 := popCanonicalHashes_frame (b.number - 256)
      (popBlocks b.number s.blockHashesByNumber.keys.card s).canonicalHashesByNumber.keys.card
      (popBlocks b.number s.blockHashesByNumber.keys.card s)
    refine ⟨fun n => ?_, fun h b' hb' => ?_, fun h b' hb' hout => ?_, fun n hs hn => ?_⟩
    · rw [h2 n, h1.canonical]
    · rw [h3.1] at hb'; exact h1.sub h b' hb'
    · rw [h3.1]; exact h1.keep h b' hb' hout
    · rw [h3.2] at hn; exact h1.index n hs hn

/-- a block that is stored after finalization was stored before -/
theorem removeBlocksOnFinalized_block {s : ChainState} {hash h : B256} {b : Block}
    (hb : (s.removeBlocksOnFinalized hash).blocksByHash.get h = some b) : s.blocksByHash.get h = some b := by
  rcases removeBlocksOnFinalized_cases s hash with ⟨-, heq⟩ | ⟨f, -, hf⟩
  · rwa [heq] at hb
  · exact hf.sub h b hb

/-- a canonical entry after finalization was one before -/
theorem removeBlocksOnFinalized_entry {s : ChainState} {hash h : B256} {n : ℕ}
    (hg : (s.removeBlocksOnFinalized hash).canonicalHashesByNumber.get n = some h) :
    s.canonicalHashesByNumber.get n = some h := by
  rcases removeBlocksOnFinalized_cases s hash with ⟨-, heq⟩ | ⟨f, -, hf⟩
  · rwa [heq] at hg
  · rw [hf.canonical] at hg
    split_ifs at hg
    exact hg

/-- the entry at a height stays if the finalized block is not too far above it -/
theorem removeBlocksOnFinalized_keepsEntry {s : ChainState} {hash : B256} {n : ℕ}
    (hle : ∀ f, s.blocksByHash.get hash = some f → f.number ≤ n + 256) :
    (s.removeBlocksOnFinalized hash).canonicalHashesByNumber.get n = s.canonicalHashesByNumber.get n := by
  rcases removeBlocksOnFinalized_cases s hash with ⟨-, heq⟩ | ⟨f, hf, hpruned⟩
  · rw [heq]
  · have := hle f hf
    rw [hpruned.canonical, if_neg (by omega)]

/-! ## The traversal has enough steps -/

/-- the stored blocks below a height -/
def below (blocks : FMap B256 Block) (n : ℕ) : Finset B256 :=
  blocks.keys.filter fun h => ∃ b ∈ blocks.get h, b.number < n

/-- below the height of a stored block there are fewer stored blocks than up to its height -/
theorem card_below_lt {blocks : FMap B256 Block} {h : B256} {b : Block} {m : ℕ} (hg : blocks.get h = some b)
    (hm : m ≤ b.number) : (below blocks m).card < (below blocks (b.number + 1)).card := by
  have hself : h ∈ below blocks (b.number + 1) :=
    Finset.mem_filter.2 ⟨FMap.mem_keys_of_get hg, b, hg, Nat.lt_succ_self _⟩
  apply Finset.card_lt_card
  refine ⟨fun x hx => ?_, fun hsub => ?_⟩
  · obtain ⟨hx, y, hy, hyn⟩ := Finset.mem_filter.1 hx
    exact Finset.mem_filter.2 ⟨hx, y, hy, by omega⟩
  · obtain ⟨_, y, hy, hyn⟩ := Finset.mem_filter.1 (hsub hself)
    simp only [hg, Option.mem_def, Option.some.injEq] at hy
    subst hy; omega

/-- **The traversal ends by itself.** Where the number of every stored block is one above the number of its stored
parent, the traversal stops at the target height or at a block that is not stored, never for want of steps. -/
theorem ancestorWalk_enough (blocks : FMap B256 Block)
    (hlink : ∀ h b b', blocks.get h = some b → blocks.get b.parentHash = some b' → b.number = b'.number + 1)
    (number fuel : ℕ) (ancestor : BlockNumHash)
    (hfuel : ∀ b, blocks.get ancestor.hash = some b → (below blocks (b.number + 1)).card < fuel)
    (hpos : 0 < fuel) (stop : BlockNumHash) (h : ancestorWalk blocks number fuel ancestor = .inr stop) :
    blocks.get stop.hash = none := by
  induction fuel generalizing ancestor with
  | zero => exact absurd hpos (lt_irrefl 0)
  | succ fuel ih =>
    simp only [ancestorWalk] at h
    cases hg : blocks.get ancestor.hash with
    | none => simp only [hg, Sum.inr.injEq] at h; rw [← h]; exact hg
    | some b =>
      simp only [hg] at h
      split_ifs at h with hn
      have hb := hfuel b hg
      have hpos' : 0 < (below blocks (b.number + 1)).card :=
        lt_of_le_of_lt (Nat.zero_le _) (card_below_lt hg (Nat.zero_le _))
      apply ih b.parentNumHash _ (by omega) h
      intro p hp
      have hpn : b.number = p.number + 1 := hlink _ _ _ hg hp
      -- the blocks at or below the parent's height are fewer: the block itself is not among them
      have hlt := card_below_lt hg (m := p.number + 1) hpn.ge
      omega

end ChainState

end Ress
