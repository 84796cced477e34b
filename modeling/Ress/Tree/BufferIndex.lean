/-
Age and number of the buffered blocks, over every sequence of the buffer's operations.

Three collections index the buffered blocks: `parentToChild` by parent hash, `earliestBlocks` by number, and `lru` by
age. Every removal of the buffer comes down to dropping single blocks (`Drops`) and forgetting the links of a parent, so
an invariant of the indices is proved once for a drop and carried through the loops.

- `BufferOp`, `runOps`: the operations, and the buffer after a list of them.
- `Aged`: number index and LRU. It holds in every state reached (`runs_aged`), and says which block an insertion evicts
  (`capacity_and_age`).
-/
import Ress.Lib.Recency
import Ress.Lib.Run
import Ress.Tree.StateRoot
import Ress.Tree.BlockBuffer

namespace Ress

open GroupIndex (Indexes eraseFrom group)
open Recency (Later Recent)

/-- an operation of the buffer; `ord` is the order in which it iterates hash sets -/
inductive BufferOp where
  | insertBlock (block : Block)
  | insertWitness (blockHash : B256) (witness : ExecutionWitness) (missingBytecodes : Finset B256)
  | removeBlock (hash : B256)
  | removeWitness (blockHash : B256)
  | removeBlockWithChildren (ord : Enumeration B256) (parentHash : B256)
  | evictOldBlocks (ord : Enumeration B256) (blockNumber : ℕ)
  | onBytecodeReceived (codeHash : B256)

namespace BlockBuffer

/-- the buffer after an operation -/
def apply (buffer : BlockBuffer) : BufferOp → BlockBuffer
  | .insertBlock block => buffer.insertBlock block
  | .insertWitness blockHash witness missingBytecodes => buffer.insertWitness blockHash witness missingBytecodes
  | .removeBlock hash => (buffer.removeBlock hash).2
  | .removeWitness blockHash => (buffer.removeWitness blockHash).2
  | .removeBlockWithChildren ord parentHash => (removeBlockWithChildren ord buffer parentHash).2
  | .evictOldBlocks ord blockNumber => evictOldBlocks ord buffer blockNumber
  | .onBytecodeReceived codeHash => (buffer.onBytecodeReceived codeHash).2

/-- the hashes inserted by a list of operations, in order -/
def inserted (ops : List BufferOp) : List B256 :=
  ops.filterMap fun
    | .insertBlock block => some block.hash
    | _ => none

/-- among the blocks inserted, a hash determines the header -/
def HashesDetermine (ops : List BufferOp) : Prop :=
  ∀ b b', .insertBlock b ∈ ops → .insertBlock b' ∈ ops → b.hash = b'.hash → b.toSealedHeader = b'.toSealedHeader

variable {β β' β'' : BlockBuffer}

/-! ## Dropping one block -/

/-- what a removal does to the blocks and their indices: nothing, or one block goes from all of them -/
inductive Drops (hash : B256) (β : BlockBuffer) : BlockBuffer → Prop
  | same (witnesses : FMap B256 ExecutionWitness) (missing : FMap B256 (Finset B256)) :
      Drops hash β { β with witnesses := witnesses, missingBytecodes := missing }
  | gone (b : Block) (hb : β.blocks.get hash = some b) (witnesses : FMap B256 ExecutionWitness)
      (missing : FMap B256 (Finset B256)) :
      Drops hash β
        ⟨β.blocks.del hash, witnesses, missing, eraseFrom β.parentToChild b.parentHash hash,
          eraseFrom β.earliestBlocks b.number hash, { β.lru with order := β.lru.order.erase hash }⟩

theorem removeWitness_drops (β : BlockBuffer) (hash : B256) : Drops hash β (β.removeWitness hash).2 := by
  simp only [removeWitness]
  split_ifs
  · exact Drops.same _ _
  · exact Drops.same β.witnesses β.missingBytecodes

theorem removeBlock_drops (β : BlockBuffer) (hash : B256) : Drops hash β (β.removeBlock hash).2 := by
  simp only [removeBlock, removeWitness]
  cases hb : β.blocks.get hash with
  | none => exact Drops.same β.witnesses β.missingBytecodes
  | some b =>
    simp only
    split_ifs
    · cases β.witnesses.get hash with
      | none => exact Drops.same _ _
      | some w =>
        simp only [removeFromEarliestBlocks, removeFromParent, lruRemove, removeFromSet_eq]
        exact Drops.gone b hb _ _
    · exact Drops.same β.witnesses β.missingBytecodes

theorem evictBlock_drops (β : BlockBuffer) (hash : B256) : Drops hash β (β.evictBlock hash).2 := by
  simp only [evictBlock]
  cases hb : β.blocks.get hash with
  | none => exact Drops.same β.witnesses β.missingBytecodes
  | some b =>
    simp only [removeFromEarliestBlocks, removeFromParent, lruRemove, removeFromSet_eq]
    exact Drops.gone b hb _ _

theorem insertWitness_drops (β : BlockBuffer) (hash : B256) (w : ExecutionWitness) (m : Finset B256) :
    Drops hash β (β.insertWitness hash w m) := Drops.same _ _

theorem onBytecodeReceived_drops (β : BlockBuffer) (codeHash : B256) :
    Drops codeHash β (β.onBytecodeReceived codeHash).2 := Drops.same _ _

/-! ## Inserting one block -/

/-- the buffer with a block added and its hash in front of an order of ages -/
def addInFront (β : BlockBuffer) (b : Block) (order : List B256) : BlockBuffer :=
  { β.addBlock b with lru := { β.lru with order := b.hash :: order } }

theorem insertBlock_room (b : Block) (h : b.hash ∈ β.lru.order ∨ β.lru.order.length < β.lru.limit) :
    β.insertBlock b = β.addInFront b (β.lru.order.erase b.hash) := by
  have hcond : ¬ (b.hash ∉ (β.addBlock b).lru.order ∧ (β.addBlock b).lru.limit ≤ (β.addBlock b).lru.order.length) := by
    rintro ⟨hnot, hle⟩
    rcases h with h | h
    · exact hnot h
    · exact absurd h (not_lt.2 hle)
  simp only [insertBlock, insertHashAndGetEvicted]
  rw [if_neg hcond]
  rfl

/-- at the limit the last block of the order is dropped once the new one is in the maps -/
theorem insertBlock_full (b : Block) (hnew : b.hash ∉ β.lru.order) (hfull : β.lru.limit ≤ β.lru.order.length)
    {oldest : B256} (hlast : β.lru.order.getLast? = some oldest) :
    Drops oldest (β.addInFront b β.lru.order.dropLast) (β.insertBlock b) ∧
      (β.insertBlock b).blocks.get oldest = none := by
  have hcond : b.hash ∉ (β.addBlock b).lru.order ∧ (β.addBlock b).lru.limit ≤ (β.addBlock b).lru.order.length :=
    ⟨hnew, hfull⟩
  have herase : β.lru.order.dropLast.erase b.hash = β.lru.order.dropLast :=
    List.erase_of_not_mem fun hmem => hnew (List.mem_of_mem_dropLast hmem)
  have hinsert : (β.addBlock b).insertHashAndGetEvicted b.hash =
      (some oldest, β.addInFront b β.lru.order.dropLast) := by
    simp only [insertHashAndGetEvicted]
    rw [if_pos hcond, ← hlast]
    simp only [addInFront, addBlock, herase]
  simp only [insertBlock, hinsert, evictBlock]
  cases he : (β.addInFront b β.lru.order.dropLast).blocks.get oldest with
  | none => exact ⟨Drops.same _ _, he⟩
  | some e =>
    simp only [removeFromEarliestBlocks, removeFromParent, lruRemove, removeFromSet_eq]
    -- the link to the evicted block is gone already when it is removed a second time
    rw [GroupIndex.eraseFrom_idem]
    exact ⟨Drops.gone e he _ _, FMap.get_del_self _ _⟩

/-! ## Age and number -/

/-- `e` is the buffered block that has gone longest without being inserted again -/
def LeastRecent (history : List B256) (β : BlockBuffer) (e : B256) : Prop :=
  e ∈ β.blocks.keys ∧ ∀ h ∈ β.blocks.keys, h ≠ e → Later history h e

/-- the LRU holds the buffered blocks in order of their insertion, at most `limit` of them, and the number index groups
them by number, for the numbers in `S` -/
structure Aged (limit : ℕ) (history : List B256) (S : Set ℕ) (β : BlockBuffer) : Prop where
  keyed : β.Keyed
  numbers : Indexes (fun b : Block => b.number) S β.blocks β.earliestBlocks
  lru_nodup : β.lru.order.Nodup
  lru_keys : ∀ h, h ∈ β.lru.order ↔ h ∈ β.blocks.keys
  lru_limit : β.lru.limit = limit
  bounded : β.lru.order.length ≤ limit
  recent : Recent history β.lru.order

variable {limit : ℕ} {history : List B256} {S : Set ℕ}

theorem Aged.new (limit : ℕ) : Aged limit [] Set.univ (BlockBuffer.new limit) :=
  ⟨fun h b hb => by simp [BlockBuffer.new] at hb, Indexes.empty _, List.nodup_nil, by simp [BlockBuffer.new], rfl,
    Nat.zero_le _, Recent.nil⟩

theorem Aged.card (h : Aged limit history S β) : β.blocks.keys.card = β.lru.order.length := by
  have hkeys : β.lru.order.toFinset = β.blocks.keys := by
    ext k
    rw [List.mem_toFinset, h.lru_keys]
  rw [← hkeys, List.toFinset_card_of_nodup h.lru_nodup]

theorem Drops.numbers {hash : B256} (hd : Drops hash β β')
    (h : Indexes (fun b : Block => b.number) S β.blocks β.earliestBlocks) :
    Indexes (fun b : Block => b.number) S β'.blocks β'.earliestBlocks := by
  cases hd with
  | same => exact h
  | gone b hb => exact h.remove hb

theorem Drops.lru {hash : B256} (hd : Drops hash β β')
    (h : β.lru.order.Nodup ∧ ∀ k, k ∈ β.lru.order ↔ k ∈ β.blocks.keys) :
    β'.lru.order.Nodup ∧ ∀ k, k ∈ β'.lru.order ↔ k ∈ β'.blocks.keys := by
  cases hd with
  | same => exact h
  | gone b hb =>
    refine ⟨h.1.erase _, ?_⟩
    intro k
    rw [h.1.mem_erase_iff, FMap.keys_del, Finset.mem_erase, h.2]

/-- **Dropping a block** keeps the indices. -/
theorem Aged.drops {hash : B256} (h : Aged limit history S β) (hd : Drops hash β β') : Aged limit history S β' := by
  cases hd with
  | same => exact ⟨h.keyed, h.numbers, h.lru_nodup, h.lru_keys, h.lru_limit, h.bounded, h.recent⟩
  | gone b hb =>
    have hsub := List.erase_sublist (a := hash) (l := β.lru.order)
    obtain ⟨hnodup, hkeys⟩ := (Drops.gone b hb β.witnesses β.missingBytecodes).lru ⟨h.lru_nodup, h.lru_keys⟩
    refine ⟨?_, h.numbers.remove hb, hnodup, hkeys, h.lru_limit, ?_, h.recent.sublist hsub⟩
    · intro k b' hb'
      exact h.keyed k b' (FMap.get_del_some hb').2
    · exact hsub.length_le.trans h.bounded

/-- the links play no part -/
theorem Aged.withLinks (h : Aged limit history S β) (links : FMap B256 (Finset B256)) :
    Aged limit history S { β with parentToChild := links } :=
  ⟨h.keyed, h.numbers, h.lru_nodup, h.lru_keys, h.lru_limit, h.bounded, h.recent⟩

/-- taking a block with its descendants keeps the indices -/
theorem removeBlockWithChildren_aged (ord : Enumeration B256) (p : B256) (h : Aged limit history S β) :
    Aged limit history S (removeBlockWithChildren ord β p).2 :=
  removeBlockWithChildren_keeps (fun β hash ha => Aged.drops ha (removeBlock_drops β hash))
    (fun _ _ ha => Aged.withLinks ha _) ord p h

/-- the blocks taken out of a buffer leave as much room as they are -/
theorem Taken.fits {l : List (Block × ExecutionWitness)} (h : Taken β β' l) (ha : Aged limit history S β)
    (ha' : Aged limit history S β') : β'.lru.order.length + l.length ≤ limit := by
  -- the hashes taken and the hashes left are different keys of the buffer
  have hlist : (l.map fun x => x.1.hash).toFinset.card = l.length := by
    rw [List.toFinset_card_of_nodup h.nodup, List.length_map]
  have hdisjoint : Disjoint β'.blocks.keys (l.map fun x => x.1.hash).toFinset := by
    rw [Finset.disjoint_left]
    intro k hk hmem
    obtain ⟨x, hx, rfl⟩ := List.mem_map.1 (List.mem_toFinset.1 hmem)
    obtain ⟨b, hb⟩ := FMap.mem_keys.1 hk
    rw [h.gone x hx] at hb
    cases hb
  have hsub : β'.blocks.keys ∪ (l.map fun x => x.1.hash).toFinset ⊆ β.blocks.keys := by
    intro k hk
    rcases Finset.mem_union.1 hk with hk | hk
    · obtain ⟨b, hb⟩ := FMap.mem_keys.1 hk
      exact FMap.mem_keys_of_get (h.blocks k b hb)
    · obtain ⟨x, hx, rfl⟩ := List.mem_map.1 (List.mem_toFinset.1 hk)
      exact FMap.mem_keys_of_get (h.taken x hx).1
  have hcard := Finset.card_le_card hsub
  rw [Finset.card_union_of_disjoint hdisjoint, hlist, ha.card, ha'.card] at hcard
  have hbounded := ha.bounded
  omega

/-- what an insertion does to the buffered blocks: the new one is there, and nothing else changes unless the buffer was
full and the block new; then the least recent block goes, and it alone -/
structure EvictsOldest (limit : ℕ) (history : List B256) (β : BlockBuffer) (b : Block) (β' : BlockBuffer) : Prop where
  kept : β'.blocks.get b.hash = some b
  room : b.hash ∈ β.blocks.keys ∨ β.blocks.keys.card < limit →
    ∀ h, h ≠ b.hash → β'.blocks.get h = β.blocks.get h
  full : b.hash ∉ β.blocks.keys → limit ≤ β.blocks.keys.card →
    ∃ e, LeastRecent history β e ∧ β'.blocks.get e = none ∧
      ∀ h, h ≠ b.hash → h ≠ e → β'.blocks.get h = β.blocks.get h

/-- the maps with a new block in them are indexed by number -/
theorem Aged.added (h : Aged limit history Set.univ β) {b : Block}
    (hsame : ∀ b', β.blocks.get b.hash = some b' → b'.toSealedHeader = b.toSealedHeader) (order : List B256) :
    (β.addInFront b order).Keyed ∧ Indexes (fun b : Block => b.number) Set.univ (β.addInFront b order).blocks
      (β.addInFront b order).earliestBlocks := by
  refine ⟨?_, h.numbers.add b.hash b (Set.mem_univ _) fun b' hb' =>
    congrArg (fun x : SealedHeader => x.number) (hsame b' hb')⟩
  intro k b' hb'
  simp only [addInFront, addBlock, FMap.get_set] at hb'
  split_ifs at hb' with hk
  · cases hb'
    exact hk.symm
  · exact h.keyed k b' hb'

/-- inserting a block again, or a new one while there is room -/
theorem Aged.insertInRoom (h : Aged limit history Set.univ β) {b : Block}
    (hsame : ∀ b', β.blocks.get b.hash = some b' → b'.toSealedHeader = b.toSealedHeader)
    (hroom : b.hash ∈ β.lru.order ∨ β.lru.order.length < β.lru.limit) :
    Aged limit (history ++ [b.hash]) Set.univ (β.insertBlock b) ∧
      EvictsOldest limit history β b (β.insertBlock b) := by
  obtain ⟨hkeyed, hnumbers⟩ := h.added hsame (β.lru.order.erase b.hash)
  have hblocks : (β.addInFront b (β.lru.order.erase b.hash)).blocks = β.blocks.set b.hash b := rfl
  rw [insertBlock_room b hroom]
  refine ⟨⟨hkeyed, hnumbers, ?_, ?_, h.lru_limit, ?_, h.recent.touch h.lru_nodup b.hash⟩, ⟨?_, ?_, ?_⟩⟩
  · exact List.nodup_cons.2 ⟨h.lru_nodup.not_mem_erase, h.lru_nodup.erase _⟩
  · intro k
    rw [hblocks, FMap.keys_set, Finset.mem_insert, ← h.lru_keys k]
    simp only [addInFront, List.mem_cons, h.lru_nodup.mem_erase_iff]
    tauto
  · have hlen := h.bounded
    have hl := h.lru_limit
    simp only [addInFront, List.length_cons]
    rcases hroom with hmem | hlt
    · have hpos := List.length_pos_of_mem hmem
      rw [List.length_erase_of_mem hmem]
      omega
    · have herase := (List.erase_sublist (a := b.hash) (l := β.lru.order)).length_le
      omega
  · rw [hblocks, FMap.get_set_self]
  · intro _ k hk
    rw [hblocks, FMap.get_set_ne _ _ hk]
  · intro hnew hfull
    rw [h.card] at hfull
    rcases hroom with hmem | hlt
    · exact absurd ((h.lru_keys b.hash).1 hmem) hnew
    · rw [h.lru_limit] at hlt
      omega

/-- inserting a new block at the limit: the last block of the order goes -/
theorem Aged.insertAtLimit (h : Aged limit history Set.univ β) {b : Block}
    (hsame : ∀ b', β.blocks.get b.hash = some b' → b'.toSealedHeader = b.toSealedHeader) (hnew : b.hash ∉ β.lru.order)
    (hfull : β.lru.limit ≤ β.lru.order.length) {oldest : B256} {init : List B256}
    (horder : β.lru.order = init ++ [oldest]) :
    Aged limit (history ++ [b.hash]) Set.univ (β.insertBlock b) ∧
      EvictsOldest limit history β b (β.insertBlock b) := by
  have hlast : β.lru.order.getLast? = some oldest := by rw [horder, List.getLast?_concat]
  have hinit : β.lru.order.dropLast = init := by rw [horder, List.dropLast_concat]
  obtain ⟨hkeyed, hnumbers⟩ := h.added hsame init
  obtain ⟨hdrop, hgone⟩ := insertBlock_full b hnew hfull hlast
  rw [hinit] at hdrop
  have hblocks : (β.addInFront b init).blocks = β.blocks.set b.hash b := rfl
  have hnodup := h.lru_nodup
  have hbounded := h.bounded
  rw [horder, List.nodup_append] at hnodup
  rw [horder, List.length_append, List.length_singleton] at hbounded
  have holdest : oldest ∉ init := fun hmem => hnodup.2.2 _ hmem _ (List.mem_singleton_self _) rfl
  have hmemo : oldest ∈ β.lru.order := by rw [horder]; simp
  have hne : oldest ≠ b.hash := fun heq => hnew (heq ▸ hmemo)
  have hnew' : b.hash ∉ init := fun hmem => hnew (by rw [horder]; exact List.mem_append_left _ hmem)
  generalize hβ : β.insertBlock b = β' at hdrop hgone
  cases hdrop with
  | same =>
    obtain ⟨e, he⟩ := FMap.mem_keys.1 ((h.lru_keys oldest).1 hmemo)
    rw [hblocks, FMap.get_set_ne _ _ hne, he] at hgone
    cases hgone
  | gone e he =>
    have hages : (β.addInFront b init).lru.order.erase oldest = b.hash :: init := by
      simp only [addInFront]
      rw [List.erase_of_not_mem]
      simp [holdest, hne]
    refine ⟨⟨?_, hnumbers.remove he, ?_, ?_, h.lru_limit, ?_, ?_⟩, ⟨?_, ?_, ?_⟩⟩
    · intro k b' hb'
      exact hkeyed k b' (FMap.get_del_some hb').2
    · rw [hages]
      exact List.nodup_cons.2 ⟨hnew', hnodup.1⟩
    · intro k
      rw [hages, FMap.keys_del, hblocks, FMap.keys_set, Finset.mem_erase, Finset.mem_insert, ← h.lru_keys k, horder]
      simp only [List.mem_cons, List.mem_append, List.not_mem_nil, or_false]
      constructor
      · rintro (rfl | hk)
        · exact ⟨fun heq => hne heq.symm, Or.inl rfl⟩
        · exact ⟨fun heq => holdest (heq ▸ hk), Or.inr (Or.inl hk)⟩
      · tauto
    · rw [hages, List.length_cons]
      exact hbounded
    · have hrecent := h.recent.touch h.lru_nodup b.hash
      rw [List.erase_of_not_mem hnew, horder] at hrecent
      rw [hages]
      exact hrecent.sublist ((List.sublist_append_left init [oldest]).cons_cons b.hash)
    · rw [FMap.get_del_ne _ hne.symm, hblocks, FMap.get_set_self]
    · intro hroom
      rw [h.card, ← h.lru_keys] at hroom
      rw [h.lru_limit] at hfull
      exact absurd hroom (not_or.2 ⟨hnew, not_lt.2 hfull⟩)
    · intro _ _
      refine ⟨oldest, ⟨(h.lru_keys oldest).1 hmemo, ?_⟩, FMap.get_del_self _ _, ?_⟩
      · intro k hk hkne
        exact (h.recent.getLast hlast).2 k ((h.lru_keys k).2 hk) hkne
      · intro k hkb hko
        rw [FMap.get_del_ne _ hko, hblocks, FMap.get_set_ne _ _ hkb]

/-- **Inserting a block** keeps the indices, and evicts the least recent block exactly when there is no room. -/
theorem Aged.insertBlock (h : Aged limit history Set.univ β) (hlimit : 1 ≤ limit) {b : Block}
    (hsame : ∀ b', β.blocks.get b.hash = some b' → b'.toSealedHeader = b.toSealedHeader) :
    Aged limit (history ++ [b.hash]) Set.univ (β.insertBlock b) ∧
      EvictsOldest limit history β b (β.insertBlock b) := by
  by_cases hroom : b.hash ∈ β.lru.order ∨ β.lru.order.length < β.lru.limit
  · exact h.insertInRoom hsame hroom
  · rw [not_or, not_lt] at hroom
    obtain ⟨hnew, hfull⟩ := hroom
    -- a full order is not empty
    have hpos : β.lru.order ≠ [] := by
      rw [h.lru_limit] at hfull
      exact List.ne_nil_of_length_pos (hlimit.trans hfull)
    exact h.insertAtLimit hsame hnew hfull (List.dropLast_append_getLast hpos).symm

/-! ## Evicting old blocks -/

/-- popping the old entries of the number index -/
theorem popEarliest_spec (ord : Enumeration B256) (n fuel : ℕ) (β : BlockBuffer)
    (hfuel : β.earliestBlocks.keys.card ≤ fuel) :
    ∃ earliest, (popEarliest ord n fuel β).2 = { β with earliestBlocks := earliest } ∧
      (∀ k, earliest.get k = if k ≤ n then none else β.earliestBlocks.get k) ∧
      ∀ h, h ∈ (popEarliest ord n fuel β).1 ↔ ∃ k ≤ n, h ∈ group β.earliestBlocks k := by
  induction fuel generalizing β with
  | zero =>
    have hkeys := Finset.card_eq_zero.1 (Nat.le_zero.1 hfuel)
    have hnone : ∀ k, β.earliestBlocks.get k = none := fun k => FMap.get_of_notMem_keys (by simp [hkeys])
    exact ⟨β.earliestBlocks, rfl, fun k => by simp [hnone], fun h => by simp [popEarliest, group, hnone]⟩
  | succ fuel ih =>
    simp only [popEarliest]
    cases hfirst : β.earliestBlocks.firstKey with
    | none =>
      have hkeys := FMap.firstKey_none hfirst
      have hnone : ∀ k, β.earliestBlocks.get k = none := fun k => FMap.get_of_notMem_keys (by simp [hkeys])
      exact ⟨β.earliestBlocks, rfl, fun k => by simp [hnone], fun h => by simp [group, hnone]⟩
    | some number =>
      obtain ⟨hnum, hleast⟩ := FMap.firstKey_some hfirst
      simp only
      by_cases hle : number > n
      · rw [if_pos hle]
        have hnone : ∀ k ≤ n, β.earliestBlocks.get k = none := by
          intro k hk
          apply FMap.get_of_notMem_keys
          intro hmem
          have hkey := hleast k hmem
          omega
        refine ⟨β.earliestBlocks, rfl, ?_, ?_⟩
        · intro k
          split_ifs with hk
          · exact hnone k hk
          · rfl
        · intro h
          constructor
          · intro hh
            simp at hh
          · rintro ⟨k, hk, hh⟩
            simp [group, hnone k hk] at hh
      · rw [if_neg hle]
        have hcard : (β.earliestBlocks.del number).keys.card ≤ fuel := by
          rw [FMap.keys_del, Finset.card_erase_of_mem hnum]
          omega
        obtain ⟨earliest, heq, hget, hmem⟩ := ih { β with earliestBlocks := β.earliestBlocks.del number } hcard
        refine ⟨earliest, by rw [heq], ?_, ?_⟩
        · intro k
          rw [hget k]
          split_ifs with hk
          · rfl
          · rw [FMap.get_del_ne]
            omega
        · intro h
          rw [List.mem_append, ord.mem, hmem h]
          constructor
          · rintro (hh | ⟨k, hk, hh⟩)
            · exact ⟨number, not_lt.1 hle, hh⟩
            · refine ⟨k, hk, ?_⟩
              simp only [group, FMap.get_del] at hh
              split_ifs at hh
              · simp at hh
              · exact hh
          · rintro ⟨k, hk, hh⟩
            by_cases hkn : k = number
            · exact Or.inl (hkn ▸ hh)
            · refine Or.inr ⟨k, hk, ?_⟩
              simp only [group, FMap.get_del_ne _ hkn]
              exact hh

/-- **Evicting old blocks** keeps the number index: every number that is popped has lost all its blocks. -/
theorem evictOldBlocks_numbers (h : Indexes (fun b : Block => b.number) Set.univ β.blocks β.earliestBlocks)
    (ord : Enumeration B256) (n : ℕ) :
    Indexes (fun b : Block => b.number) Set.univ (evictOldBlocks ord β n).blocks
      (evictOldBlocks ord β n).earliestBlocks := by
  obtain ⟨earliest, heq, hget, hmem⟩ := popEarliest_spec ord n β.earliestBlocks.keys.card β le_rfl
  simp only [BlockBuffer.evictOldBlocks]
  rw [heq]
  have hpopped : Indexes (fun b : Block => b.number) {k | n < k} β.blocks earliest := by
    refine ⟨?_, ?_, ?_⟩
    · intro k hk i
      rw [← h.exact k (Set.mem_univ k) i]
      simp only [group]
      rw [hget k, if_neg (not_le.2 hk)]
    · intro k hk
      rw [hget k, if_pos (not_lt.1 hk)]
    · intro k hk
      rw [hget k] at hk
      split_ifs at hk
      exact h.noEmpty k hk
  have hevicted := evictBlocks_keeps
    (P := fun β => Indexes (fun b : Block => b.number) {k | n < k} β.blocks β.earliestBlocks)
    (fun β hash hn => (evictBlock_drops β hash).numbers hn) (popEarliest ord n β.earliestBlocks.keys.card β).1
    (show (fun β : BlockBuffer => Indexes (fun b : Block => b.number) {k | n < k} β.blocks β.earliestBlocks)
      { β with earliestBlocks := earliest } from hpopped)
  obtain ⟨hrem, hgone⟩ := evictBlocks_removes (popEarliest ord n β.earliestBlocks.keys.card β).1
    { β with earliestBlocks := earliest }
  have hnumbers := hevicted.restore (Set.subset_univ _) (by
    intro k _ hk i b hb hbk
    have hold : i ∈ group β.earliestBlocks k := (h.exact k (Set.mem_univ k) i).2 ⟨b, hrem.blocks i b hb, hbk⟩
    have hnone := hgone i ((hmem i).2 ⟨k, not_lt.1 hk, hold⟩)
    rw [hb] at hnone
    cases hnone)
  exact evictChildren_keeps
    (P := fun β => Indexes (fun b : Block => b.number) Set.univ β.blocks β.earliestBlocks)
    (fun β hash hn => (evictBlock_drops β hash).numbers hn) (fun β p hn => hn) ord _ _ hnumbers

theorem Drops.withEarliest {hash : B256} (hd : Drops hash β β') (earliest : FMap ℕ (Finset B256)) :
    ∃ earliest', Drops hash { β with earliestBlocks := earliest } { β' with earliestBlocks := earliest' } := by
  cases hd with
  | same witnesses missing => exact ⟨earliest, Drops.same witnesses missing⟩
  | gone b hb witnesses missing =>
    exact ⟨eraseFrom earliest b.number hash,
      Drops.gone (β := { β with earliestBlocks := earliest }) b hb witnesses missing⟩

/-- **Evicting old blocks** keeps the indices. What is not about numbers holds for any number index. -/
theorem Aged.evictOldBlocks (h : Aged limit history Set.univ β) (ord : Enumeration B256) (n : ℕ) :
    Aged limit history Set.univ (evictOldBlocks ord β n) := by
  have hrest : ∃ earliest,
      Aged limit history Set.univ { BlockBuffer.evictOldBlocks ord β n with earliestBlocks := earliest } := by
    apply evictOldBlocks_keeps
      (P := fun β => ∃ earliest, Aged limit history Set.univ { β with earliestBlocks := earliest })
    · rintro β hash ⟨earliest, ha⟩
      obtain ⟨earliest', hd'⟩ := (evictBlock_drops β hash).withEarliest earliest
      exact ⟨earliest', ha.drops hd'⟩
    · rintro β p ⟨earliest, ha⟩
      exact ⟨earliest, ha.withLinks _⟩
    · rintro β earliest ⟨earliest', ha⟩
      exact ⟨earliest', ha⟩
    · exact ⟨β.earliestBlocks, h⟩
  obtain ⟨earliest, ha⟩ := hrest
  exact ⟨ha.keyed, evictOldBlocks_numbers h.numbers ord n, ha.lru_nodup, ha.lru_keys, ha.lru_limit, ha.bounded,
    ha.recent⟩

/-- no block that is left after evicting old blocks is old -/
theorem Aged.evictOldBlocks_above (h : Aged limit history Set.univ β) (ord : Enumeration B256) (n : ℕ) {k : B256}
    {b : Block} (hb : (BlockBuffer.evictOldBlocks ord β n).blocks.get k = some b) : n < b.number := by
  obtain ⟨earliest, heq, -, hmem⟩ := popEarliest_spec ord n β.earliestBlocks.keys.card β le_rfl
  simp only [BlockBuffer.evictOldBlocks] at hb
  rw [heq] at hb
  obtain ⟨hrem, hgone⟩ := evictBlocks_removes (popEarliest ord n β.earliestBlocks.keys.card β).1
    { β with earliestBlocks := earliest }
  have hevicted := (evictChildren_removes ord _ _ _).blocks k b hb
  by_contra hle
  have hold := (h.numbers.exact b.number (Set.mem_univ _) k).2 ⟨b, hrem.blocks k b hevicted, rfl⟩
  have hnone := hgone k ((hmem k).2 ⟨b.number, not_lt.1 hle, hold⟩)
  cases hevicted.symm.trans hnone

/-! ## Every sequence of operations -/

/-- **One operation** keeps the indices of age and number. -/
theorem Aged.apply (h : Aged limit history Set.univ β) (hlimit : 1 ≤ limit) (op : BufferOp)
    (hsame : ∀ b b', op = .insertBlock b → β.blocks.get b.hash = some b' → b'.toSealedHeader = b.toSealedHeader) :
    Aged limit (history ++ inserted [op]) Set.univ (β.apply op) := by
  -- only an insertion adds to the history
  have h' : Aged limit (history ++ []) Set.univ β := by rw [List.append_nil]; exact h
  cases op with
  | insertBlock b => exact (h.insertBlock hlimit fun b' => hsame b b' rfl).1
  | insertWitness hash witness missing => exact h'.drops (insertWitness_drops β hash witness missing)
  | removeBlock hash => exact h'.drops (removeBlock_drops β hash)
  | removeWitness hash => exact h'.drops (removeWitness_drops β hash)
  | removeBlockWithChildren ord parentHash =>
    exact removeBlockWithChildren_keeps (fun β hash ha => ha.drops (removeBlock_drops β hash))
      (fun β p ha => ha.withLinks _) ord
      parentHash h'
  | evictOldBlocks ord number => exact h'.evictOldBlocks ord number
  | onBytecodeReceived codeHash => exact h'.drops (onBytecodeReceived_drops β codeHash)

/-- a block in the buffer was there before the operation, or the operation inserted it under its hash -/
theorem apply_blocks {op : BufferOp} {h : B256} {b : Block}
    (hb : (β.apply op).blocks.get h = some b) : β.blocks.get h = some b ∨ op = .insertBlock b ∧ b.hash = h := by
  cases op with
  | insertBlock b' =>
    have hadd := (insertBlock_removes β b').blocks h b hb
    simp only [addBlock, FMap.get_set] at hadd
    split_ifs at hadd with hk
    · cases hadd
      exact Or.inr ⟨rfl, hk.symm⟩
    · exact Or.inl hadd
  | insertWitness hash witness missing => exact Or.inl hb
  | removeBlock hash => exact Or.inl ((removeBlock_removes β hash).blocks h b hb)
  | removeWitness hash => exact Or.inl ((removeWitness_removes β hash).1.blocks h b hb)
  | removeBlockWithChildren ord parentHash =>
    exact Or.inl ((removeBlockWithChildren_released ord β parentHash).blocks h b hb)
  | evictOldBlocks ord number => exact Or.inl ((evictOldBlocks_removes ord β number).blocks h b hb)
  | onBytecodeReceived codeHash => exact Or.inl hb

/-- a link after an operation was there before, or leads to the block that the operation inserted -/
theorem apply_children {op : BufferOp} {p h : B256} (hh : h ∈ (β.apply op).children p) :
    h ∈ β.children p ∨ ∃ b, op = .insertBlock b ∧ b.hash = h ∧ b.parentHash = p := by
  cases op with
  | insertBlock b =>
    have hadd := (insertBlock_removes β b).toShrinks.children_sub p hh
    rw [children_addBlock] at hadd
    split_ifs at hadd with hp
    · rcases Finset.mem_insert.1 hadd with rfl | hold
      · exact Or.inr ⟨b, rfl, rfl, hp.symm⟩
      · exact Or.inl hold
    · exact Or.inl hadd
  | insertWitness hash witness missing => exact Or.inl hh
  | removeBlock hash => exact Or.inl ((removeBlock_removes β hash).toShrinks.children_sub p hh)
  | removeWitness hash => exact Or.inl ((removeWitness_removes β hash).1.toShrinks.children_sub p hh)
  | removeBlockWithChildren ord parentHash =>
    exact Or.inl ((removeBlockWithChildren_released ord β parentHash).toShrinks.children_sub p hh)
  | evictOldBlocks ord number => exact Or.inl ((evictOldBlocks_removes ord β number).toShrinks.children_sub p hh)
  | onBytecodeReceived codeHash => exact Or.inl hh

theorem apply_keyed (op : BufferOp) (h : β.Keyed) : (β.apply op).Keyed := by
  intro k b hb
  rcases apply_blocks hb with hb | ⟨-, hk⟩
  · exact h k b hb
  · exact hk

/-- the buffer after a list of operations -/
def runOps (limit : ℕ) (ops : List BufferOp) : BlockBuffer := Run.run apply (BlockBuffer.new limit) ops

theorem runOps_concat (limit : ℕ) (ops : List BufferOp) (op : BufferOp) :
    runOps limit (ops ++ [op]) = (runOps limit ops).apply op := by
  simp only [runOps]
  rw [Run.run_append]
  rfl

/-- the buffered blocks are among those inserted -/
theorem runOps_blocks (limit : ℕ) (ops : List BufferOp) (h : B256) (b : Block)
    (hb : (runOps limit ops).blocks.get h = some b) : .insertBlock b ∈ ops := by
  induction ops using List.reverseRecOn with
  | nil => simp [runOps, BlockBuffer.new] at hb
  | append_singleton ops op ih =>
    rw [runOps_concat] at hb
    rcases apply_blocks hb with hb | ⟨rfl, -⟩
    · exact List.mem_append_left _ (ih hb)
    · simp

theorem runOps_keyed (limit : ℕ) (ops : List BufferOp) : (runOps limit ops).Keyed := by
  induction ops using List.reverseRecOn with
  | nil =>
    intro h b hb
    simp [runOps, BlockBuffer.new] at hb
  | append_singleton ops op ih =>
    rw [runOps_concat]
    exact apply_keyed op ih

theorem HashesDetermine.of_append {ops ops' : List BufferOp} (h : HashesDetermine (ops ++ ops')) :
    HashesDetermine ops :=
  fun b b' hb hb' heq => h b b' (List.mem_append_left _ hb) (List.mem_append_left _ hb') heq

theorem inserted_concat (ops : List BufferOp) (op : BufferOp) :
    inserted (ops ++ [op]) = inserted ops ++ inserted [op] := List.filterMap_append

theorem runs_aged (hlimit : 1 ≤ limit) {ops : List BufferOp} (hops : HashesDetermine ops) :
    Aged limit (inserted ops) Set.univ (runOps limit ops) := by
  induction ops using List.reverseRecOn with
  | nil => exact Aged.new limit
  | append_singleton ops op ih =>
    have haged := ih hops.of_append
    rw [runOps_concat, inserted_concat]
    apply haged.apply hlimit op
    rintro b b' rfl hb'
    exact hops b' b (List.mem_append_left _ (runOps_blocks limit ops _ b' hb')) (by simp)
      (haged.keyed _ _ hb')

/-- **Capacity and age.** Whatever operations a buffer with room for `limit` blocks has been through: the LRU holds
exactly the buffered blocks, there are at most `limit` of them, the number index holds for each number the nonempty set
of the blocks with it, and inserting one more block evicts the least recent block when the buffer is full and the block
new, and otherwise none. -/
theorem capacity_and_age (limit : ℕ) (hlimit : 1 ≤ limit) (ops : List BufferOp)
    (hops : HashesDetermine ops) :
    ((runOps limit ops).lru.order.Nodup ∧
        ∀ h, h ∈ (runOps limit ops).lru.order ↔ h ∈ (runOps limit ops).blocks.keys) ∧
      (runOps limit ops).blocks.keys.card ≤ limit ∧
      (∀ n s, (runOps limit ops).earliestBlocks.get n = some s ↔
        s ≠ ∅ ∧ ∀ h, h ∈ s ↔ ∃ b, (runOps limit ops).blocks.get h = some b ∧ b.number = n) ∧
      ∀ b, HashesDetermine (ops ++ [.insertBlock b]) →
        EvictsOldest limit (inserted ops) (runOps limit ops) b ((runOps limit ops).insertBlock b) := by
  have haged := runs_aged hlimit hops
  refine ⟨⟨haged.lru_nodup, haged.lru_keys⟩, ?_, haged.numbers.get_eq_some, ?_⟩
  · rw [haged.card]
    exact haged.bounded
  · intro b hb
    refine (haged.insertBlock hlimit ?_).2
    intro b' hb'
    exact hb b' b (List.mem_append_left _ (runOps_blocks limit ops _ b' hb')) (by simp) (haged.keyed _ _ hb')

/-- block `n` of a chain: its hash is `n + 1` -/
def pending (n : ℕ) : Block :=
  ⟨⟨⟨BitVec.ofNat 256 n, n, 0, 0, []⟩, BitVec.ofNat 256 (n + 1)⟩, ⟨[], []⟩⟩

/-- a buffer for one block, with a block in it -/
theorem capacity_and_age_one :
    EvictsOldest 1 [2] (runOps 1 [.insertBlock (pending 1)]) (pending 2)
      ((runOps 1 [.insertBlock (pending 1)]).insertBlock (pending 2)) := by
  have hdetermine : HashesDetermine ([.insertBlock (pending 1)] ++ [.insertBlock (pending 2)]) := by
    intro b b' hb hb' heq
    simp only [List.cons_append, List.nil_append, List.mem_cons, BufferOp.insertBlock.injEq, List.not_mem_nil,
      or_false] at hb hb'
    rcases hb with rfl | rfl <;> rcases hb' with rfl | rfl
    · rfl
    · exact absurd heq (by decide)
    · exact absurd heq (by decide)
    · rfl
  exact (capacity_and_age 1 le_rfl _ hdetermine.of_append).2.2.2 (pending 2) hdetermine

end BlockBuffer

end Ress
