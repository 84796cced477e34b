/-
The chain update for a new canonical head (`EngineTree::on_new_head`, `NewCanonicalChain` in
`crates/engine/src/tree/mod.rs`), and what it does to the canonical hashes.

`onNewHead` walks back from the new head and from the canonical head to where the two chains meet; `onNewHeadCounted` is
the same with the height counters that the source keeps on the way, and its debug assertion on them.

- `onNewHead_cases`: the walks that lead to an update;
- `onNewHead_stored`: the headers of a chain update are stored headers, and its tip is the requested head;
- `onChainUpdate_get`: the canonical entries after an update;
- `onNewHead_segments`: where stored blocks are linked to their parents (`Linked`), the two lists of an update are the
  segments from the fork to the canonical head and to the new head;
- `walkToFork_enough`: the last loop of the walk ends by itself.

`Wf` is what a chain state keeps in every run: its indexes name the true heights.
-/
import Ress.Provider.RessProvider

namespace Ress

/-- non-empty chain of blocks: a simple append to the canonical head, or two chains that trace back to a shared
ancestor -/
inductive NewCanonicalChain where
  | commit (new : List SealedHeader) (ne : new ≠ [])
  | reorg (new : List SealedHeader) (ne : new ≠ []) (old : List SealedHeader)

namespace NewCanonicalChain

def tip : NewCanonicalChain → SealedHeader
  | commit new ne => new.getLast ne
  | reorg new ne _ => new.getLast ne

def new : NewCanonicalChain → List SealedHeader
  | commit new _ => new
  | reorg new _ _ => new

/-- the reorged blocks: none for an append -/
def old : NewCanonicalChain → List SealedHeader
  | commit _ _ => []
  | reorg _ _ old => old

end NewCanonicalChain

namespace ChainState

/-! ## The walk to a new head -/

/-- walk back a number of stored blocks; the chain is kept lowest block first -/
def walkBack (s : ChainState) : ℕ → B256 → List SealedHeader → Option (B256 × List SealedHeader)
  | 0, hash, chain => some (hash, chain)
  | steps + 1, hash, chain =>
    match s.sealedHeader hash with
    | none => none
    | some header => walkBack s steps header.parentHash (header :: chain)

/-- walk both chains from hashes at the same height until the fork block is reached -/
def walkToFork (s : ChainState) :
    ℕ → B256 → B256 → List SealedHeader → List SealedHeader → Option (List SealedHeader × List SealedHeader)
  | 0, _, _, _, _ => none
  | fuel + 1, oldHash, currentHash, oldChain, newChain =>
    if oldHash = currentHash then some (newChain, oldChain)
    else
      match s.sealedHeader oldHash, s.sealedHeader currentHash with
      | some old, some new => walkToFork s fuel old.parentHash new.parentHash (old :: oldChain) (new :: newChain)
      | _, _ => none

/-- the new chain for the given head; does not change the tracked state -/
def onNewHead (s : ChainState) (canonicalHead : BlockNumHash) (newHead : B256) : Option NewCanonicalChain :=
  match s.sealedHeader newHead with
  | none => none
  | some newHeadBlock =>
    let parent := newHeadBlock.parentNumHash
    -- walk back the new chain while it is above the canonical head
    match s.walkBack (parent.number - canonicalHead.number) parent.hash [] with
    | none => none
    | some (currentHash, newChain) =>
      let currentNumber := min parent.number canonicalHead.number
      if currentHash = canonicalHead.hash then
        some (.commit (newChain ++ [newHeadBlock]) (by simp))
      else
        -- a reorg: gather the canonical blocks above, then walk back both chains
        match s.walkBack (canonicalHead.number - currentNumber) canonicalHead.hash [] with
        | none => none
        | some (oldHash, oldChain) =>
          match s.walkToFork (s.blocksByHash.keys.card + 1) oldHash currentHash oldChain newChain with
          | none => none
          | some (newChain, oldChain) => some (.reorg (newChain ++ [newHeadBlock]) (by simp) oldChain)

/-- the two height counters where the source asserts that they are equal -/
structure HeightsDiffer where
  currentNumber : ℕ
  currentCanonicalNumber : ℕ

/-- walk back while the height counter is above the other chain's -/
def walkBackWhile (s : ChainState) (floor : ℕ) : ℕ → B256 → List SealedHeader → Option (ℕ × B256 × List SealedHeader)
  | 0, hash, chain => some (0, hash, chain)
  | number + 1, hash, chain =>
    if floor < number + 1 then
      match s.sealedHeader hash with
      | none => none
      | some header => walkBackWhile s floor number header.parentHash (header :: chain)
    else some (number + 1, hash, chain)

/-- `onNewHead` with the counters that the loops decrement, and with the debug assertion -/
def onNewHeadCounted (s : ChainState) (canonicalHead : BlockNumHash) (newHead : B256) :
    Except HeightsDiffer (Option NewCanonicalChain) :=
  match s.sealedHeader newHead with
  | none => .ok none
  | some newHeadBlock =>
    let parent := newHeadBlock.parentNumHash
    match s.walkBackWhile canonicalHead.number parent.number parent.hash [] with
    | none => .ok none
    | some (currentNumber, currentHash, newChain) =>
      if currentHash = canonicalHead.hash then .ok (some (.commit (newChain ++ [newHeadBlock]) (by simp)))
      else
        match s.walkBackWhile currentNumber canonicalHead.number canonicalHead.hash [] with
        | none => .ok none
        | some (currentCanonicalNumber, oldHash, oldChain) =>
          if currentNumber = currentCanonicalNumber then
            match s.walkToFork (s.blocksByHash.keys.card + 1) oldHash currentHash oldChain newChain with
            | none => .ok none
            | some (newChain, oldChain) => .ok (some (.reorg (newChain ++ [newHeadBlock]) (by simp) oldChain))
          else .error ⟨currentNumber, currentCanonicalNumber⟩

/-- headers that were looked up -/
def AllStored (s : ChainState) (l : List SealedHeader) : Prop := ∀ x ∈ l, ∃ h, s.sealedHeader h = some x

theorem AllStored.cons {s : ChainState} {l : List SealedHeader} {x : SealedHeader} {h : B256} (hl : s.AllStored l)
    (hx : s.sealedHeader h = some x) : s.AllStored (x :: l) := by
  intro y hy
  rcases List.mem_cons.1 hy with rfl | hy
  · exact ⟨h, hx⟩
  · exact hl y hy

theorem walkBack_stored {s : ChainState} {steps : ℕ} {hash hash' : B256} {chain chain' : List SealedHeader}
    (hc : s.AllStored chain) (h : s.walkBack steps hash chain = some (hash', chain')) : s.AllStored chain' := by
  induction steps generalizing hash chain with
  | zero =>
    simp only [walkBack, Option.some.injEq, Prod.mk.injEq] at h
    rw [← h.2]; exact hc
  | succ steps ih =>
    unfold walkBack at h
    split at h
    · cases h
    · rename_i header hh
      exact ih (hc.cons hh) h

theorem walkToFork_stored {s : ChainState} {fuel : ℕ} {a b : B256} {old new old' new' : List SealedHeader}
    (ho : s.AllStored old) (hn : s.AllStored new) (h : s.walkToFork fuel a b old new = some (new', old')) :
    s.AllStored new' ∧ s.AllStored old' := by
  induction fuel generalizing a b old new with
  | zero => simp [walkToFork] at h
  | succ fuel ih =>
    unfold walkToFork at h
    split_ifs at h with hab
    · simp only [Option.some.injEq, Prod.mk.injEq] at h
      rw [← h.1, ← h.2]; exact ⟨hn, ho⟩
    · split at h
      · rename_i x y hx hy
        exact ih (ho.cons hx) (hn.cons hy) h
      · cases h

/-- a walk of no steps stays where it is -/
theorem walkBack_zero {s : ChainState} {hash hash' : B256} {chain chain' : List SealedHeader}
    (h : s.walkBack 0 hash chain = some (hash', chain')) : hash' = hash := by
  simp only [walkBack, Option.some.injEq, Prod.mk.injEq] at h
  exact h.1.symm

/-- the walks that lead to an update: from the parent of the new head down to the head's height, and if that is not the
head, from the head down to the parent's height and from both to the fork -/
theorem onNewHead_cases {s : ChainState} {canonicalHead : BlockNumHash} {newHead : B256} {update : NewCanonicalChain}
    (h : s.onNewHead canonicalHead newHead = some update) :
    ∃ block cur newAbove, s.sealedHeader newHead = some block ∧
      s.walkBack (block.number - 1 - canonicalHead.number) block.parentHash [] = some (cur, newAbove) ∧
      (cur = canonicalHead.hash ∧ (∃ ne, update = .commit (newAbove ++ [block]) ne) ∨
        cur ≠ canonicalHead.hash ∧ ∃ first oldAbove newBelow old,
          s.walkBack (canonicalHead.number - min (block.number - 1) canonicalHead.number) canonicalHead.hash [] =
            some (first, oldAbove) ∧
          s.walkToFork (s.blocksByHash.keys.card + 1) first cur oldAbove newAbove = some (newBelow, old) ∧
          ∃ ne, update = .reorg (newBelow ++ [block]) ne old) := by
  unfold onNewHead at h
  split at h
  · cases h
  · rename_i block hb
    simp only [SealedHeader.parentNumHash] at h
    split at h
    · cases h
    · rename_i cur newAbove hw1
      refine ⟨block, cur, newAbove, hb, hw1, ?_⟩
      split_ifs at h with hcur
      · exact Or.inl ⟨hcur, _, (Option.some.inj h).symm⟩
      · split at h
        · cases h
        · rename_i first oldAbove hw2
          split at h
          · cases h
          · rename_i newBelow old hw3
            exact Or.inr ⟨hcur, first, oldAbove, newBelow, old, hw2, hw3, _, (Option.some.inj h).symm⟩

/-- **A chain update is made of stored headers**, and its tip is the header of the requested head. -/
theorem onNewHead_stored {s : ChainState} {canonicalHead : BlockNumHash} {newHead : B256} {update : NewCanonicalChain}
    (h : s.onNewHead canonicalHead newHead = some update) :
    s.sealedHeader newHead = some update.tip ∧ s.AllStored update.new ∧ s.AllStored update.old := by
  obtain ⟨block, cur, newAbove, hb, hw1, hcase⟩ := onNewHead_cases h
  have hempty : s.AllStored [] := by intro x hx; simp at hx
  have hsnoc : ∀ l, s.AllStored l → s.AllStored (l ++ [block]) := by
    intro l hl x hx
    rcases List.mem_append.1 hx with hx | hx
    · exact hl x hx
    · simp only [List.mem_singleton] at hx
      exact ⟨newHead, by rw [hb, hx]⟩
  have hnew := walkBack_stored hempty hw1
  rcases hcase with ⟨-, ne, rfl⟩ | ⟨-, first, oldAbove, newBelow, old, hw2, hw3, ne, rfl⟩
  · exact ⟨by simpa [NewCanonicalChain.tip] using hb, hsnoc _ hnew, hempty⟩
  · obtain ⟨hn, ho⟩ := walkToFork_stored (walkBack_stored hempty hw2) hnew hw3
    exact ⟨by simpa [NewCanonicalChain.tip] using hb, hsnoc _ hn, ho⟩

/-! ## The canonical map after an update -/

theorem removeCanonicalHashes_get (old : List SealedHeader) (s : ChainState) (n : ℕ) (h : B256) :
    (old.foldl (fun s header => s.removeCanonicalHash header.number header.hash) s).canonicalHashesByNumber.get n
        = some h ↔
      s.canonicalHashesByNumber.get n = some h ∧ ∀ x ∈ old, ¬ (x.number = n ∧ x.hash = h) := by
  induction old generalizing s with
  | nil => simp
  | cons x old ih =>
    rw [List.foldl_cons, ih, List.forall_mem_cons]
    have hstep : (s.removeCanonicalHash x.number x.hash).canonicalHashesByNumber.get n = some h ↔
        s.canonicalHashesByNumber.get n = some h ∧ ¬ (x.number = n ∧ x.hash = h) := by
      unfold removeCanonicalHash
      split_ifs with hm
      · simp only [FMap.get_del]
        split_ifs with hn
        · subst hn
          simp only [true_and, false_iff, not_and, not_not]
          intro hs
          rw [hm] at hs
          exact Option.some.inj hs
        · simp [Ne.symm hn]
      · refine ⟨fun hs => ⟨hs, ?_⟩, fun hs => hs.1⟩
        rintro ⟨rfl, rfl⟩
        exact hm hs
    rw [hstep, and_assoc]

theorem insertCanonicalHashes_get {new : List SealedHeader} {s : ChainState} {n : ℕ} {h : B256}
    (hg : (new.foldl (fun s header => s.insertCanonicalHash header.number header.hash) s).canonicalHashesByNumber.get n
      = some h) :
    (∃ x ∈ new, x.number = n ∧ x.hash = h) ∨ (∀ x ∈ new, x.number ≠ n) ∧ s.canonicalHashesByNumber.get n = some h := by
  induction new generalizing s with
  | nil => exact Or.inr ⟨by simp, hg⟩
  | cons x new ih =>
    rw [List.foldl_cons] at hg
    rcases ih hg with ⟨y, hy, hyn⟩ | ⟨hne, hs⟩
    · exact Or.inl ⟨y, List.mem_cons_of_mem _ hy, hyn⟩
    · simp only [insertCanonicalHash, FMap.get_set] at hs
      split_ifs at hs with hn
      · exact Or.inl ⟨x, List.mem_cons_self, hn.symm, Option.some.inj hs⟩
      · refine Or.inr ⟨?_, hs⟩
        intro y hy
        rcases List.mem_cons.1 hy with rfl | hy
        · exact Ne.symm hn
        · exact hne y hy

theorem insertCanonicalHashes_get_ne {new : List SealedHeader} {s : ChainState} {n : ℕ} (hne : ∀ x ∈ new, x.number ≠ n) :
    (new.foldl (fun s header => s.insertCanonicalHash header.number header.hash) s).canonicalHashesByNumber.get n =
      s.canonicalHashesByNumber.get n := by
  induction new generalizing s with
  | nil => rfl
  | cons x new ih =>
    rw [List.foldl_cons, ih fun y hy => hne y (List.mem_cons_of_mem _ hy)]
    exact FMap.get_set_ne _ _ (Ne.symm (hne x List.mem_cons_self))

theorem insertCanonicalHashes_frame (new : List SealedHeader) (s : ChainState) :
    (new.foldl (fun s header => s.insertCanonicalHash header.number header.hash) s).blocksByHash = s.blocksByHash ∧
      (new.foldl (fun s header => s.insertCanonicalHash header.number header.hash) s).blockHashesByNumber =
        s.blockHashesByNumber ∧
      (new.foldl (fun s header => s.insertCanonicalHash header.number header.hash) s).witnesses = s.witnesses := by
  induction new generalizing s with
  | nil => exact ⟨rfl, rfl, rfl⟩
  | cons x new ih => exact ih (s := s.insertCanonicalHash x.number x.hash)

theorem removeCanonicalHashes_frame (old : List SealedHeader) (s : ChainState) :
    (old.foldl (fun s header => s.removeCanonicalHash header.number header.hash) s).blocksByHash = s.blocksByHash ∧
      (old.foldl (fun s header => s.removeCanonicalHash header.number header.hash) s).blockHashesByNumber =
        s.blockHashesByNumber ∧
      (old.foldl (fun s header => s.removeCanonicalHash header.number header.hash) s).witnesses = s.witnesses := by
  induction old generalizing s with
  | nil => exact ⟨rfl, rfl, rfl⟩
  | cons x old ih =>
    obtain ⟨h1, h2, h3⟩ := ih (s.removeCanonicalHash x.number x.hash)
    rw [List.foldl_cons, h1, h2, h3]
    unfold removeCanonicalHash
    split_ifs <;> exact ⟨rfl, rfl, rfl⟩

theorem insertCanonicalHashes_last (new : List SealedHeader) (x : SealedHeader) (s : ChainState) :
    ((new ++ [x]).foldl (fun s header => s.insertCanonicalHash header.number header.hash)
      s).canonicalHashesByNumber.get x.number = some x.hash := by
  simp [List.foldl_append, insertCanonicalHash]

/-- an update changes nothing but the canonical hashes -/
theorem onChainUpdate_frame (new old : List SealedHeader) (s : ChainState) :
    (s.onChainUpdate new old).blocksByHash = s.blocksByHash ∧
      (s.onChainUpdate new old).blockHashesByNumber = s.blockHashesByNumber ∧
      (s.onChainUpdate new old).witnesses = s.witnesses := by
  unfold onChainUpdate
  obtain ⟨h1, h2, h3⟩ := insertCanonicalHashes_frame new
    (old.foldl (fun s header => s.removeCanonicalHash header.number header.hash) s)
  obtain ⟨h4, h5, h6⟩ := removeCanonicalHashes_frame old s
  exact ⟨h1.trans h4, h2.trans h5, h3.trans h6⟩

/-- an entry after an update is a new block's, or an entry that was there and is not an old block's -/
theorem onChainUpdate_get {new old : List SealedHeader} {s : ChainState} {n : ℕ} {h : B256}
    (hg : (s.onChainUpdate new old).canonicalHashesByNumber.get n = some h) :
    (∃ x ∈ new, x.number = n ∧ x.hash = h) ∨
      (∀ x ∈ new, x.number ≠ n) ∧ s.canonicalHashesByNumber.get n = some h ∧
        ∀ x ∈ old, ¬ (x.number = n ∧ x.hash = h) := by
  unfold onChainUpdate at hg
  rcases insertCanonicalHashes_get hg with hx | ⟨hne, hs⟩
  · exact Or.inl hx
  · exact Or.inr ⟨hne, (removeCanonicalHashes_get old s n h).1 hs⟩

theorem onChainUpdate_tip (update : NewCanonicalChain) (s : ChainState) :
    (s.onChainUpdate update.new update.old).canonicalHashesByNumber.get update.tip.number = some update.tip.hash := by
  unfold onChainUpdate
  cases update with
  | commit new ne =>
    obtain ⟨l, x, rfl⟩ : ∃ l x, new = l ++ [x] := ⟨_, _, (List.dropLast_append_getLast ne).symm⟩
    simpa [NewCanonicalChain.tip, NewCanonicalChain.new] using insertCanonicalHashes_last l x _
  | reorg new ne old =>
    obtain ⟨l, x, rfl⟩ : ∃ l x, new = l ++ [x] := ⟨_, _, (List.dropLast_append_getLast ne).symm⟩
    simpa [NewCanonicalChain.tip, NewCanonicalChain.new] using insertCanonicalHashes_last l x _

/-! ## What a chain state keeps in every run -/

/-- blocks are stored under their hash, and the numbers of both indexes are the numbers of the blocks -/
structure Wf (W : World) (s : ChainState) : Prop where
  known : ∀ h b, s.blocksByHash.get h = some b → b.hash = h ∧ W.Knows b.toSealedHeader
  indexed : ∀ n hs h, s.blockHashesByNumber.get n = some hs → h ∈ hs → W.HasNumber h n
  canon : ∀ n h, s.canonicalHashesByNumber.get n = some h → W.HasNumber h n

/-- blocks are stored under their hash, and their headers are known -/
def Known (W : World) (s : ChainState) : Prop :=
  ∀ h b, s.blocksByHash.get h = some b → b.hash = h ∧ W.Knows b.toSealedHeader

/-- every stored block but genesis is one above its parent -/
def Linked (W : World) (s : ChainState) : Prop :=
  ∀ h b, s.blocksByHash.get h = some b → h = W.genesis.hash ∨ W.Link h b.parentHash

variable {W : World} {s : ChainState}

theorem Known.header {h : B256} {x : SealedHeader} (hk : s.Known W) (hx : s.sealedHeader h = some x) :
    x.hash = h ∧ W.Knows x := by
  obtain ⟨b, hb, rfl⟩ := sealedHeader_some.1 hx
  exact hk h b hb

theorem Wf.header {h : B256} {x : SealedHeader} (hwf : s.Wf W) (hx : s.sealedHeader h = some x) :
    x.hash = h ∧ W.Knows x := Known.header hwf.known hx

theorem Wf.allStored {l : List SealedHeader} (hwf : s.Wf W) (hl : s.AllStored l) :
    ∀ x ∈ l, W.HasNumber x.hash x.number := by
  intro x hx
  obtain ⟨h, hh⟩ := hl x hx
  exact (hwf.header hh).2.hasNumber

theorem Linked.header {h : B256} {x : SealedHeader} (hl : s.Linked W) (hx : s.sealedHeader h = some x) :
    h = W.genesis.hash ∨ W.Link h x.parentHash := by
  obtain ⟨b, hb, rfl⟩ := sealedHeader_some.1 hx
  exact hl h b hb

/-- a stored block that stands on its parent -/
theorem Linked.set {b : Block} (hl : s.Linked W) (hlink : W.Link b.hash b.parentHash) {k : B256} {x : Block}
    (hx : (s.blocksByHash.set b.hash b).get k = some x) : k = W.genesis.hash ∨ W.Link k x.parentHash := by
  rw [FMap.get_set] at hx
  split_ifs at hx with hk
  · cases hx
    exact Or.inr (hk ▸ hlink)
  · exact hl k x hx

theorem Wf.insertBlock {b : Block} {w : Option (List Bytes)} (hwf : s.Wf W) (hb : W.Knows b.toSealedHeader) :
    (s.insertBlock b w).Wf W := by
  refine ⟨?_, ?_, hwf.canon⟩
  · intro h b' hg
    simp only [ChainState.insertBlock, FMap.get_set] at hg
    split_ifs at hg with hh
    · cases hg; exact ⟨hh.symm, hb⟩
    · exact hwf.known h b' hg
  · intro n hs h hg hmem
    simp only [ChainState.insertBlock, FMap.get_set] at hg
    split_ifs at hg with hn
    · cases hg
      subst hn
      rcases Finset.mem_insert.1 hmem with rfl | hmem
      · exact hb.hasNumber
      · cases hi : s.blockHashesByNumber.get b.number with
        | none => simp [hi] at hmem
        | some hs' => exact hwf.indexed _ hs' h hi (by simpa [hi] using hmem)
    · exact hwf.indexed n hs h hg hmem

theorem Wf.insertCanonicalHash {n : ℕ} {h : B256} (hwf : s.Wf W) (hh : W.HasNumber h n) :
    (s.insertCanonicalHash n h).Wf W := by
  refine ⟨hwf.known, hwf.indexed, ?_⟩
  intro m k hg
  simp only [ChainState.insertCanonicalHash, FMap.get_set] at hg
  split_ifs at hg with hm
  · cases hg; exact hm ▸ hh
  · exact hwf.canon m k hg

theorem Wf.insertCanonicalHashes {new : List SealedHeader} (hwf : s.Wf W)
    (hnew : ∀ x ∈ new, W.HasNumber x.hash x.number) :
    (new.foldl (fun s header => s.insertCanonicalHash header.number header.hash) s).Wf W := by
  induction new generalizing s with
  | nil => exact hwf
  | cons x new ih =>
    exact ih (hwf.insertCanonicalHash (hnew x List.mem_cons_self)) fun y hy => hnew y (List.mem_cons_of_mem _ hy)

theorem Wf.onChainUpdate {update : NewCanonicalChain} (hwf : s.Wf W) (hnew : s.AllStored update.new) :
    (s.onChainUpdate update.new update.old).Wf W := by
  obtain ⟨hblocks, hindex, -⟩ := onChainUpdate_frame update.new update.old s
  refine ⟨?_, ?_, ?_⟩
  · rw [hblocks]; exact hwf.known
  · rw [hindex]; exact hwf.indexed
  · intro n h hg
    rcases onChainUpdate_get hg with ⟨x, hx, rfl, rfl⟩ | ⟨-, hs, -⟩
    · exact hwf.allStored hnew x hx
    · exact hwf.canon n h hs

/-- a block is pruned only if it is lower than the finalized block -/
theorem removeBlocksOnFinalized_keeps
    (hindexed : ∀ n hs h, s.blockHashesByNumber.get n = some hs → h ∈ hs → W.HasNumber h n) {hash k : B256}
    {finalized b : Block} {n : ℕ} (hf : s.blocksByHash.get hash = some finalized) (hb : s.blocksByHash.get k = some b)
    (hk : W.HasNumber k n) (hn : finalized.number ≤ n) :
    (s.removeBlocksOnFinalized hash).blocksByHash.get k = some b := by
  rcases removeBlocksOnFinalized_cases s hash with ⟨hnone, -⟩ | ⟨finalized', hf', hpruned⟩
  · cases hnone.symm.trans hf
  · cases hf'.symm.trans hf
    refine hpruned.keep k b hb fun m hs hm hget hmem => ?_
    have := (hindexed m hs k hget hmem).unique hk
    omega

theorem Wf.removeBlocksOnFinalized (hwf : s.Wf W) (hash : B256) : (s.removeBlocksOnFinalized hash).Wf W := by
  rcases removeBlocksOnFinalized_cases s hash with ⟨-, heq⟩ | ⟨b, -, hf⟩
  · rw [heq]; exact hwf
  · refine ⟨fun h b' hb' => hwf.known h b' (hf.sub h b' hb'), fun n hs h hn => hwf.indexed n hs h (hf.index n hs hn), ?_⟩
    intro n h hg
    rw [hf.canonical] at hg
    split_ifs at hg
    exact hwf.canon n h hg

/-- after finalization a canonical hash is canonical as long as it is not more than 256 below the finalized block -/
theorem Finalized.isHashCanonical_iff {s' : ChainState} {finalized : Block} {h : B256} (hf : Finalized finalized s s')
    (hwf : s.Wf W) (hc : s.IsHashCanonical h) : s'.IsHashCanonical h ↔ finalized.number ≤ W.num h + 256 := by
  obtain ⟨n, hn⟩ := ChainState.isHashCanonical_iff.1 hc
  have hnum := (hwf.canon n h hn).num_eq
  constructor
  · intro hc'
    obtain ⟨m, hm⟩ := ChainState.isHashCanonical_iff.1 hc'
    rw [hf.canonical] at hm
    split_ifs at hm with hlt
    have := (hwf.canon m h hm).num_eq
    omega
  · intro hle
    apply ChainState.isHashCanonical_iff.2
    refine ⟨n, ?_⟩
    rw [hf.canonical, if_neg (by omega)]
    exact hn

/-! ## The two segments of an update -/

/-- the headers of the segment between two hashes, lowest first -/
def Segment (W : World) (base : B256) (l : List SealedHeader) (top : B256) : Prop :=
  Ancestry.SegmentOf W.Link base (l.map (·.hash)) top

theorem Segment.nil (W : World) (h : B256) : Segment W h [] h := Ancestry.SegmentOf.nil

theorem Segment.cons {base top : B256} {l : List SealedHeader} {x : SealedHeader} (h : Segment W x.hash l top)
    (hx : W.Link x.hash base) : Segment W base (x :: l) top :=
  Ancestry.SegmentOf.cons h hx

theorem Segment.snoc {base p : B256} {l : List SealedHeader} {x : SealedHeader} (h : Segment W base l p)
    (hx : W.Link x.hash p) : Segment W base (l ++ [x]) x.hash := by
  unfold Segment
  rw [List.map_append, List.map_singleton]
  exact Ancestry.SegmentOf.snoc h hx

/-- a stored block is one above its parent, if that is stored -/
theorem Linked.parent_number (hk : s.Known W) (hl : s.Linked W) {h : B256} {b p : Block}
    (hb : s.blocksByHash.get h = some b) (hp : s.blocksByHash.get b.parentHash = some p) : b.number = p.number + 1 := by
  obtain ⟨hbh, hbk⟩ := hk _ _ hb
  obtain ⟨hph, hpk⟩ := hk _ _ hp
  rcases hl _ _ hb with hgen | hlink
  · -- nothing is stored under the parent hash of genesis
    have heq : b.toSealedHeader = W.genesis.toSealedHeader := hbk.eq W.genesis_known (hbh.trans hgen)
    have hroot : W.header b.parentHash = none := by rw [heq]; exact W.genesis_root
    unfold World.Knows at hpk
    rw [hph, hroot] at hpk
    cases hpk
  · rw [← (hbh ▸ hbk.hasNumber : W.HasNumber h b.number).num_eq,
      ← (hph ▸ hpk.hasNumber : W.HasNumber b.parentHash p.number).num_eq]
    exact World.link_num _ _ hlink

/-- the only stored block at height zero is genesis -/
theorem Linked.genesis_of_zero {h : B256} {x : SealedHeader} (hl : s.Linked W) (hn : W.HasNumber h 0)
    (hx : s.sealedHeader h = some x) : h = W.genesis.hash := by
  rcases hl.header hx with h0 | ⟨u, v, hu, -, -, hnum⟩
  · exact h0
  · obtain ⟨u', hu', h0⟩ := hn
    rw [hu] at hu'
    cases hu'
    omega

theorem not_genesis_of_pos {h : B256} {x : SealedHeader} {n : ℕ} (hn : W.HasNumber h (n + 1)) (hl : s.Linked W)
    (hx : s.sealedHeader h = some x) : W.Link h x.parentHash ∧ W.HasNumber x.parentHash n := by
  rcases hl.header hx with rfl | hlink
  · have hg : W.HasNumber W.genesis.hash 0 := ⟨_, W.genesis_known, W.genesis_number⟩
    exact absurd (hn.unique hg) (by simp)
  · refine ⟨hlink, ?_⟩
    obtain ⟨y, p, hy, hp, -, hnum⟩ := hlink
    obtain ⟨y', hy', hn'⟩ := hn
    rw [hy] at hy'
    cases hy'
    exact ⟨p, hp, by omega⟩

theorem walkBack_segment (hk : s.Known W) (hl : s.Linked W) (floor : ℕ) {steps : ℕ} {hash hash' top : B256}
    {chain chain' : List SealedHeader} (hn : W.HasNumber hash (floor + steps)) (hseg : Segment W hash chain top)
    (h : s.walkBack steps hash chain = some (hash', chain')) :
    Segment W hash' chain' top ∧ W.HasNumber hash' floor := by
  induction steps generalizing hash chain with
  | zero =>
    simp only [walkBack, Option.some.injEq, Prod.mk.injEq] at h
    obtain ⟨rfl, rfl⟩ := h
    exact ⟨hseg, hn⟩
  | succ steps ih =>
    unfold walkBack at h
    split at h
    · cases h
    · rename_i x hx
      obtain ⟨hlink, hpn⟩ := not_genesis_of_pos hn hl hx
      have hxh := (hk.header hx).1
      exact ih hpn (Segment.cons (hxh ▸ hseg) (hxh ▸ hlink)) h

theorem walkToFork_segments (hk : s.Known W) (hl : s.Linked W) {fuel n : ℕ} {a b topA topB : B256}
    {old new old' new' : List SealedHeader} (ha : W.HasNumber a n) (hb : W.HasNumber b n)
    (hold : Segment W a old topA) (hnew : Segment W b new topB)
    (h : s.walkToFork fuel a b old new = some (new', old')) :
    ∃ fork, Segment W fork old' topA ∧ Segment W fork new' topB := by
  induction fuel generalizing n a b old new with
  | zero => simp [walkToFork] at h
  | succ fuel ih =>
    unfold walkToFork at h
    split_ifs at h with hab
    · simp only [Option.some.injEq, Prod.mk.injEq] at h
      obtain ⟨rfl, rfl⟩ := h
      subst hab
      exact ⟨a, hold, hnew⟩
    · split at h
      · rename_i x y hx hy
        cases n with
        | zero =>
          -- both would be genesis
          exact absurd ((hl.genesis_of_zero ha hx).trans (hl.genesis_of_zero hb hy).symm) hab
        | succ n =>
          obtain ⟨hax, han⟩ := not_genesis_of_pos ha hl hx
          obtain ⟨hby, hbn⟩ := not_genesis_of_pos hb hl hy
          have hxh := (hk.header hx).1
          have hyh := (hk.header hy).1
          exact ih han hbn (Segment.cons (hxh ▸ hold) (hxh ▸ hax)) (Segment.cons (hyh ▸ hnew) (hyh ▸ hby)) h
      · cases h

/-- a walk down to a height, or no walk from below it -/
theorem walkBack_level (hk : s.Known W) (hl : s.Linked W) {n m : ℕ} {hash hash' : B256} {chain : List SealedHeader}
    (hn : W.HasNumber hash n) (h : s.walkBack (n - m) hash [] = some (hash', chain)) :
    Segment W hash' chain hash ∧ W.HasNumber hash' (min n m) := by
  refine walkBack_segment hk hl (min n m) ?_ (Segment.nil W hash) h
  rwa [show min n m + (n - m) = n by omega]

/-- nothing is stored under the parent hash of genesis, so an update is for a block above a parent -/
theorem onNewHead_link (hk : s.Known W) (hl : s.Linked W) {canonicalHead : BlockNumHash} {newHead : B256}
    {update : NewCanonicalChain} {block : SealedHeader} (hhead : W.HasNumber canonicalHead.hash canonicalHead.number)
    (h : s.onNewHead canonicalHead newHead = some update) (hb : s.sealedHeader newHead = some block) :
    W.Link newHead block.parentHash ∧ W.HasNumber block.parentHash (block.number - 1) := by
  obtain ⟨hbh, hknown⟩ := hk.header hb
  have hlink : W.Link newHead block.parentHash := by
    refine (hl.header hb).resolve_left fun hgen => ?_
    have hgenesis : block = W.genesis.toSealedHeader := hknown.eq W.genesis_known (hbh.trans hgen)
    have hunknown : ∀ n, ¬ W.HasNumber block.parentHash n := by
      rintro n ⟨y, hy, -⟩
      rw [hgenesis, W.genesis_root] at hy
      exact absurd hy (by simp)
    have hzero : block.number = 0 := by rw [hgenesis]; exact W.genesis_number
    obtain ⟨block', cur, newAbove, hb', hw1, hcase⟩ := onNewHead_cases h
    cases hb.symm.trans hb'
    rw [hzero, Nat.zero_sub] at hw1
    rw [← walkBack_zero hw1] at hunknown
    rcases hcase with ⟨heq, -⟩ | ⟨-, first, oldAbove, newBelow, old, hw2, hw3, -⟩
    · exact hunknown _ (heq ▸ hhead)
    · have hfirst := (walkBack_level hk hl hhead hw2).2
      unfold walkToFork at hw3
      split_ifs at hw3 with heq
      · exact hunknown _ (heq ▸ hfirst)
      · split at hw3
        · rename_i u v hu hv
          obtain ⟨hvh, hvk⟩ := hk.header hv
          exact hunknown _ (hvh ▸ hvk.hasNumber)
        · cases hw3
  refine ⟨hlink, ?_⟩
  obtain ⟨y, p, hy, hp, -, hnum⟩ := hlink
  have hsame := (hbh ▸ hknown.hasNumber : W.HasNumber newHead block.number).unique ⟨y, hy, hnum⟩
  exact ⟨p, hp, by omega⟩

/-- **The two chains of an update meet.** The old chain is the segment from the fork to the canonical head, the new
chain the segment from the fork to the new head. -/
theorem onNewHead_segments (hk : s.Known W) (hl : s.Linked W) {canonicalHead : BlockNumHash} {newHead : B256}
    {update : NewCanonicalChain} (hhead : W.HasNumber canonicalHead.hash canonicalHead.number)
    (h : s.onNewHead canonicalHead newHead = some update) :
    ∃ fork, Segment W fork update.old canonicalHead.hash ∧ Segment W fork update.new newHead := by
  obtain ⟨block, cur, newAbove, hb, hw1, hcase⟩ := onNewHead_cases h
  obtain ⟨hlink, hparent⟩ := onNewHead_link hk hl hhead h hb
  have hbh := (hk.header hb).1
  have hsnoc : ∀ base l, Segment W base l block.parentHash → Segment W base (l ++ [block]) newHead := by
    intro base l hseg
    exact hbh ▸ hseg.snoc (hbh.symm ▸ hlink)
  obtain ⟨hnew, hcur⟩ := walkBack_level hk hl hparent hw1
  rcases hcase with ⟨heq, ne, rfl⟩ | ⟨-, first, oldAbove, newBelow, old, hw2, hw3, ne, rfl⟩
  · exact ⟨canonicalHead.hash, Segment.nil W _, hsnoc _ _ (heq ▸ hnew)⟩
  · obtain ⟨hold, hfirst⟩ := walkBack_level hk hl hhead hw2
    rw [min_eq_right (min_le_right _ _)] at hfirst
    obtain ⟨fork, ho, hn⟩ := walkToFork_segments hk hl hfirst hcur hold hnew hw3
    exact ⟨fork, ho, hsnoc _ _ hn⟩

/-- **The walk to the fork ends by itself**: one step for each stored block, and more steps change nothing. -/
theorem walkToFork_enough (hwf : s.Wf W) (hl : s.Linked W) {n fuel : ℕ} {a b : B256} (old new : List SealedHeader)
    (ha : W.HasNumber a n) (hb : W.HasNumber b n) (hfuel : (below s.blocksByHash (n + 1)).card < fuel) (more : ℕ) :
    s.walkToFork (fuel + more) a b old new = s.walkToFork fuel a b old new := by
  induction fuel generalizing n a b old new with
  | zero => exact absurd hfuel (Nat.not_lt_zero _)
  | succ fuel ih =>
    rw [Nat.succ_add]
    unfold walkToFork
    split_ifs with hab
    · rfl
    · cases hx : s.sealedHeader a with
      | none => rfl
      | some x =>
        cases hy : s.sealedHeader b with
        | none => rfl
        | some y =>
          simp only
          obtain ⟨hxa, hxk⟩ := hwf.header hx
          have hxn : x.number = n := (hxa ▸ hxk.hasNumber).unique ha
          obtain ⟨blk, hblk, hblkx⟩ := sealedHeader_some.1 hx
          have hbn' : blk.number = n := by rw [← hxn, ← hblkx]
          cases n with
          | zero =>
            exact absurd ((hl.genesis_of_zero ha hx).trans (hl.genesis_of_zero hb hy).symm) hab
          | succ n =>
            obtain ⟨-, han⟩ := not_genesis_of_pos ha hl hx
            obtain ⟨-, hbn⟩ := not_genesis_of_pos hb hl hy
            refine ih _ _ han hbn ?_
            have hlt := card_below_lt hblk (m := n + 1) (by rw [hbn'])
            rw [hbn'] at hlt
            omega

end ChainState

end Ress
