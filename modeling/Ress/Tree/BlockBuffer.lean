/-
The buffer of blocks that wait for a parent or a witness (`crates/engine/src/tree/block_buffer.rs`).

- A block is *ready* when its witness is stored and no bytecode of it is missing. `removeBlock` takes a block only when
  it is ready.
- `removeChildren` and `evictChildren` are worklist loops over `parentToChild`. Each round takes at least one hash off
  the worklist and pushes no more hashes than the entry it deletes holds, so `work.length` and the size of the map bound
  the rounds (`removeChildren_popped`).
- Hash sets are iterated in the order `ord`, which is any order.

`Removes` says what an operation that only removes does to the buffer: what remains was there, and a block that is
still ready is still linked to its parent if it was. Every removal is one (`removeBlock_removes`,
`removeBlockWithChildren_removes`, `evictOldBlocks_removes`). `removeBlockWithChildren_spec` says what the list that
it returns is: ready blocks, each once, parents before children, and no ready child of any of them stays behind.
-/
import Ress.Lib.GroupIndex
import Ress.Primitives

namespace Ress

open GroupIndex (eraseFrom eraseFrom_sub group group_eraseFrom)

/-- `LruMap<BlockHash, ()>` with a length limit; most recent first -/
structure LruMap where
  limit : ℕ
  order : List B256

structure BlockBuffer where
  blocks : FMap B256 Block
  witnesses : FMap B256 ExecutionWitness
  missingBytecodes : FMap B256 (Finset B256)
  parentToChild : FMap B256 (Finset B256)
  earliestBlocks : FMap ℕ (Finset B256)
  lru : LruMap

namespace BlockBuffer

def new (limit : ℕ) : BlockBuffer := ⟨∅, ∅, ∅, ∅, ∅, ⟨limit, []⟩⟩

/-! ## Lookups -/

def lowestFrom (blocks : FMap B256 Block) : ℕ → Block → Block
  | 0, current => current
  | fuel + 1, current =>
    match blocks.get current.parentHash with
    | some parent => lowestFrom blocks fuel parent
    | none => current

/-- the lowest ancestor of the given block in the buffer -/
def lowestAncestor (buffer : BlockBuffer) (hash : B256) : Option Block :=
  (buffer.blocks.get hash).map (lowestFrom buffer.blocks buffer.blocks.keys.card)

/-- the children linked to a parent hash -/
def children (buffer : BlockBuffer) (parent : B256) : Finset B256 := (buffer.parentToChild.get parent).getD ∅

/-- the bytecodes missing for a block -/
def missing (buffer : BlockBuffer) (hash : B256) : Finset B256 := (buffer.missingBytecodes.get hash).getD ∅

/-- the witness of the block is stored and no bytecode of it is missing -/
def Ready (buffer : BlockBuffer) (hash : B256) : Prop :=
  (∃ w, buffer.witnesses.get hash = some w) ∧ buffer.missing hash = ∅

/-! ## Operations -/

/-- take a hash out of the set of a key, and the key with its last hash -/
def removeFromSet {K : Type} [DecidableEq K] (m : FMap K (Finset B256)) (key : K) (hash : B256) :
    FMap K (Finset B256) :=
  match m.get key with
  | some entry => if entry.erase hash = ∅ then m.del key else m.set key (entry.erase hash)
  | none => m

def removeFromEarliestBlocks (buffer : BlockBuffer) (number : ℕ) (hash : B256) : BlockBuffer :=
  { buffer with earliestBlocks := removeFromSet buffer.earliestBlocks number hash }

/-- remove from the parent child connection; does not remove children -/
def removeFromParent (buffer : BlockBuffer) (parentHash hash : B256) : BlockBuffer :=
  { buffer with parentToChild := removeFromSet buffer.parentToChild parentHash hash }

def lruRemove (buffer : BlockBuffer) (hash : B256) : BlockBuffer :=
  { buffer with lru := { buffer.lru with order := buffer.lru.order.erase hash } }

/-- evict the block from the inner collections, if it is buffered -/
def evictBlock (buffer : BlockBuffer) (hash : B256) : Option Block × BlockBuffer :=
  match buffer.blocks.get hash with
  | none => (none, buffer)
  | some block =>
    let buffer := { buffer with
      blocks := buffer.blocks.del hash
      witnesses := buffer.witnesses.del hash
      missingBytecodes := buffer.missingBytecodes.del hash }
    let buffer := buffer.removeFromEarliestBlocks block.number hash
    let buffer := buffer.removeFromParent block.parentHash hash
    (some block, buffer.lruRemove hash)

/-- insert the hash and return the oldest evicted hash if any -/
def insertHashAndGetEvicted (buffer : BlockBuffer) (entry : B256) : Option B256 × BlockBuffer :=
  let lru := buffer.lru
  let (evicted, order) :=
    if entry ∉ lru.order ∧ lru.limit ≤ lru.order.length then (lru.order.getLast?, lru.order.dropLast)
    else (none, lru.order)
  (evicted, { buffer with lru := { lru with order := entry :: order.erase entry } })

/-- the first three statements of `insert_block` -/
def addBlock (buffer : BlockBuffer) (block : Block) : BlockBuffer :=
  { buffer with
    parentToChild := buffer.parentToChild.set block.parentHash (insert block.hash (buffer.children block.parentHash))
    earliestBlocks := buffer.earliestBlocks.set block.number
      (insert block.hash ((buffer.earliestBlocks.get block.number).getD ∅))
    blocks := buffer.blocks.set block.hash block }

def insertBlock (buffer : BlockBuffer) (block : Block) : BlockBuffer :=
  let (evicted, buffer) := (buffer.addBlock block).insertHashAndGetEvicted block.hash
  match evicted with
  | none => buffer
  | some evictedHash =>
    match buffer.evictBlock evictedHash with
    | (none, buffer) => buffer
    | (some evictedBlock, buffer) => buffer.removeFromParent evictedBlock.parentHash evictedHash

def insertWitness (buffer : BlockBuffer) (blockHash : B256) (witness : ExecutionWitness)
    (missingBytecodes : Finset B256) : BlockBuffer :=
  { buffer with
    witnesses := buffer.witnesses.set blockHash witness
    missingBytecodes :=
      if missingBytecodes ≠ ∅ then buffer.missingBytecodes.set blockHash missingBytecodes
      else buffer.missingBytecodes }

/-- remove the witness only if there are no missing bytecodes for it -/
def removeWitness (buffer : BlockBuffer) (blockHash : B256) : Option ExecutionWitness × BlockBuffer :=
  if buffer.missing blockHash = ∅ then
    (buffer.witnesses.get blockHash, { buffer with
      missingBytecodes := buffer.missingBytecodes.del blockHash
      witnesses := buffer.witnesses.del blockHash })
  else (none, buffer)

/-- update missing bytecodes; returns the block hashes that are ready for insertion -/
def onBytecodeReceived (buffer : BlockBuffer) (codeHash : B256) : Finset B256 × BlockBuffer :=
  (buffer.missingBytecodes.keys.filter fun blockHash => (buffer.missing blockHash).erase codeHash = ∅,
    { buffer with
      missingBytecodes := buffer.missingBytecodes.retain fun _ missing =>
        if missing.erase codeHash = ∅ then none else some (missing.erase codeHash) })

/-- remove a block that is ready -/
def removeBlock (buffer : BlockBuffer) (hash : B256) : Option (Block × ExecutionWitness) × BlockBuffer :=
  match buffer.blocks.get hash with
  | none => (none, buffer)
  | some block =>
    match buffer.removeWitness hash with
    | (none, buffer) => (none, buffer)
    | (some witness, buffer) =>
      let buffer := { buffer with blocks := buffer.blocks.del hash }
      let buffer := buffer.removeFromEarliestBlocks block.number hash
      let buffer := buffer.removeFromParent block.parentHash hash
      (some (block, witness), buffer.lruRemove hash)

/-- remove each of the blocks that is ready -/
def removeBlocks (buffer : BlockBuffer) : List B256 → List (Block × ExecutionWitness) × BlockBuffer
  | [] => ([], buffer)
  | hash :: hashes =>
    let (removed, buffer) := buffer.removeBlock hash
    let (rest, buffer) := buffer.removeBlocks hashes
    (removed.toList ++ rest, buffer)

/-- remove all children and their descendants for the given blocks; the top of the worklist is its first element -/
def removeChildren (ord : Enumeration B256) :
    ℕ → List B256 → BlockBuffer → List (Block × ExecutionWitness) × BlockBuffer
  | 0, _, buffer => ([], buffer)
  | _ + 1, [], buffer => ([], buffer)
  | fuel + 1, parentHash :: work, buffer =>
    match buffer.parentToChild.get parentHash with
    | none => removeChildren ord fuel work buffer
    | some parentChildren =>
      let buffer := { buffer with parentToChild := buffer.parentToChild.del parentHash }
      let (removed, buffer) := buffer.removeBlocks (ord.list parentChildren)
      let (rest, buffer) := removeChildren ord fuel ((ord.list parentChildren).reverse ++ work) buffer
      (removed ++ rest, buffer)

/-- rounds that a worklist loop can take -/
def rounds (buffer : BlockBuffer) (work : List B256) : ℕ := work.length + buffer.parentToChild.weight Finset.card

/-- remove the given block and all its descendants: the blocks with lower number come first -/
def removeBlockWithChildren (ord : Enumeration B256) (buffer : BlockBuffer) (parentHash : B256) :
    List (Block × ExecutionWitness) × BlockBuffer :=
  let (removed, buffer) := buffer.removeBlock parentHash
  let (rest, buffer) := removeChildren ord (buffer.rounds [parentHash] + 1) [parentHash] buffer
  (removed.toList ++ rest, buffer)

def evictBlocks (buffer : BlockBuffer) (hashes : List B256) : BlockBuffer :=
  hashes.foldl (fun buffer hash => (buffer.evictBlock hash).2) buffer

/-- evict all children and their descendants for the given blocks -/
def evictChildren (ord : Enumeration B256) : ℕ → List B256 → BlockBuffer → BlockBuffer
  | 0, _, buffer => buffer
  | _ + 1, [], buffer => buffer
  | fuel + 1, parentHash :: work, buffer =>
    match buffer.parentToChild.get parentHash with
    | none => evictChildren ord fuel work buffer
    | some parentChildren =>
      let buffer := { buffer with parentToChild := buffer.parentToChild.del parentHash }
      evictChildren ord fuel ((ord.list parentChildren).reverse ++ work) (buffer.evictBlocks (ord.list parentChildren))

/-- pop the entries of the earliest blocks up to a number -/
def popEarliest (ord : Enumeration B256) (blockNumber : ℕ) : ℕ → BlockBuffer → List B256 × BlockBuffer
  | 0, buffer => ([], buffer)
  | fuel + 1, buffer =>
    match buffer.earliestBlocks.firstKey with
    | none => ([], buffer)
    | some number =>
      if number > blockNumber then ([], buffer)
      else
        let blockHashes := ord.list ((buffer.earliestBlocks.get number).getD ∅)
        let (rest, buffer) := popEarliest ord blockNumber fuel
          { buffer with earliestBlocks := buffer.earliestBlocks.del number }
        (blockHashes ++ rest, buffer)

/-- discard all blocks that precede a block number -/
def evictOldBlocks (ord : Enumeration B256) (buffer : BlockBuffer) (blockNumber : ℕ) : BlockBuffer :=
  let (hashes, buffer) := popEarliest ord blockNumber buffer.earliestBlocks.keys.card buffer
  let buffer := buffer.evictBlocks hashes
  -- the last hash collected is popped first
  evictChildren ord (buffer.rounds hashes + 1) hashes.reverse buffer

/-! ## Rules for the loops -/

section Rules

variable {P : BlockBuffer → Prop} {buffer : BlockBuffer}

theorem removeBlocks_keeps (hremove : ∀ buffer hash, P buffer → P (buffer.removeBlock hash).2) (hashes : List B256)
    (h : P buffer) : P (buffer.removeBlocks hashes).2 := by
  induction hashes generalizing buffer with
  | nil => exact h
  | cons hash hashes ih => exact ih (hremove buffer hash h)

theorem evictBlocks_keeps (hevict : ∀ buffer hash, P buffer → P (buffer.evictBlock hash).2) (hashes : List B256)
    (h : P buffer) : P (buffer.evictBlocks hashes) := by
  induction hashes generalizing buffer with
  | nil => exact h
  | cons hash hashes ih => exact ih (hevict buffer hash h)

theorem removeChildren_keeps (hremove : ∀ buffer hash, P buffer → P (buffer.removeBlock hash).2)
    (hunlink : ∀ buffer p, P buffer → P { buffer with parentToChild := buffer.parentToChild.del p })
    (ord : Enumeration B256) (fuel : ℕ) (work : List B256) (h : P buffer) :
    P (removeChildren ord fuel work buffer).2 := by
  induction fuel generalizing work buffer with
  | zero => exact h
  | succ fuel ih =>
    cases work with
    | nil => exact h
    | cons p work =>
      simp only [removeChildren]
      cases buffer.parentToChild.get p with
      | none => exact ih work h
      | some cs => exact ih _ (removeBlocks_keeps hremove (ord.list cs) (hunlink buffer p h))

theorem evictChildren_keeps (hevict : ∀ buffer hash, P buffer → P (buffer.evictBlock hash).2)
    (hunlink : ∀ buffer p, P buffer → P { buffer with parentToChild := buffer.parentToChild.del p })
    (ord : Enumeration B256) (fuel : ℕ) (work : List B256) (h : P buffer) : P (evictChildren ord fuel work buffer) := by
  induction fuel generalizing work buffer with
  | zero => exact h
  | succ fuel ih =>
    cases work with
    | nil => exact h
    | cons p work =>
      simp only [evictChildren]
      cases buffer.parentToChild.get p with
      | none => exact ih work h
      | some cs => exact ih _ (evictBlocks_keeps hevict (ord.list cs) (hunlink buffer p h))

theorem popEarliest_keeps (hpop : ∀ buffer earliest, P buffer → P { buffer with earliestBlocks := earliest })
    (ord : Enumeration B256) (n fuel : ℕ) (h : P buffer) : P (popEarliest ord n fuel buffer).2 := by
  induction fuel generalizing buffer with
  | zero => exact h
  | succ fuel ih =>
    simp only [popEarliest]
    cases buffer.earliestBlocks.firstKey with
    | none => exact h
    | some number =>
      simp only
      split_ifs
      · exact h
      · exact ih (hpop buffer _ h)

theorem removeBlockWithChildren_keeps (hremove : ∀ buffer hash, P buffer → P (buffer.removeBlock hash).2)
    (hunlink : ∀ buffer p, P buffer → P { buffer with parentToChild := buffer.parentToChild.del p })
    (ord : Enumeration B256) (parentHash : B256) (h : P buffer) :
    P (removeBlockWithChildren ord buffer parentHash).2 := by
  simp only [removeBlockWithChildren]
  exact removeChildren_keeps hremove hunlink ord _ _ (hremove buffer parentHash h)

theorem evictOldBlocks_keeps (hevict : ∀ buffer hash, P buffer → P (buffer.evictBlock hash).2)
    (hunlink : ∀ buffer p, P buffer → P { buffer with parentToChild := buffer.parentToChild.del p })
    (hpop : ∀ buffer earliest, P buffer → P { buffer with earliestBlocks := earliest }) (ord : Enumeration B256)
    (n : ℕ) (h : P buffer) : P (evictOldBlocks ord buffer n) := by
  simp only [evictOldBlocks]
  exact evictChildren_keeps hevict hunlink ord _ _ (evictBlocks_keeps hevict _ (popEarliest_keeps hpop ord n _ h))

end Rules

/-! ## Sets of links -/

theorem removeFromSet_eq {K : Type} [DecidableEq K] (m : FMap K (Finset B256)) (key : K) (hash : B256) :
    removeFromSet m key hash = eraseFrom m key hash := by
  simp only [removeFromSet, eraseFrom]
  cases m.get key with
  | none => rfl
  | some entry => rfl

theorem removeFromSet_getD {K : Type} [DecidableEq K] (m : FMap K (Finset B256)) (key k : K) (hash : B256) :
    ((removeFromSet m key hash).get k).getD ∅ =
      if k = key then ((m.get k).getD ∅).erase hash else (m.get k).getD ∅ := by
  rw [removeFromSet_eq]
  have h := group_eraseFrom m key k hash
  simp only [group] at h
  rw [h]
  split_ifs with hk
  · rw [hk]
  · rfl

theorem removeFromSet_sub {K : Type} [DecidableEq K] {m : FMap K (Finset B256)} {key k : K} {hash : B256}
    {v' : Finset B256} (h : (removeFromSet m key hash).get k = some v') : ∃ v, m.get k = some v ∧ v' ⊆ v := by
  rw [removeFromSet_eq] at h
  exact eraseFrom_sub h

theorem children_addBlock (buffer : BlockBuffer) (b : Block) (p : B256) :
    (buffer.addBlock b).children p =
      if p = b.parentHash then insert b.hash (buffer.children p) else buffer.children p := by
  simp only [addBlock, children]
  simp only [FMap.get_set]
  split_ifs with hp
  · subst hp; rfl
  · rfl

/-! ## What a removal keeps -/

/-- an operation that only removes: what remains was there, with the same missing bytecodes -/
structure Shrinks (β β' : BlockBuffer) : Prop where
  blocks : ∀ h b, β'.blocks.get h = some b → β.blocks.get h = some b
  witnesses : ∀ h w, β'.witnesses.get h = some w → β.witnesses.get h = some w
  missing : ∀ h w, β'.witnesses.get h = some w → β'.missing h = β.missing h
  links : ∀ p v', β'.parentToChild.get p = some v' → ∃ v, β.parentToChild.get p = some v ∧ v' ⊆ v

/-- in addition a remaining block that is still ready is still linked to its parent, if it was -/
structure Removes (β β' : BlockBuffer) : Prop extends Shrinks β β' where
  linked : ∀ h b, β'.blocks.get h = some b → β'.Ready h → h ∈ β.children b.parentHash → h ∈ β'.children b.parentHash

/-- the block is buffered and ready: `removeBlock` takes it -/
def Removable (β : BlockBuffer) (hash : B256) : Prop := (∃ b, β.blocks.get hash = some b) ∧ β.Ready hash

variable {β β' β'' : BlockBuffer}

theorem Shrinks.rfl' (β : BlockBuffer) : Shrinks β β :=
  ⟨fun _ _ h => h, fun _ _ h => h, fun _ _ _ => rfl, fun _ v h => ⟨v, h, subset_rfl⟩⟩

theorem Shrinks.ready (h : Shrinks β β') {k : B256} (hr : β'.Ready k) : β.Ready k := by
  obtain ⟨⟨w, hw⟩, hm⟩ := hr
  exact ⟨⟨w, h.witnesses k w hw⟩, by rw [← h.missing k w hw]; exact hm⟩

theorem Shrinks.removable (h : Shrinks β β') {k : B256} (hr : β'.Removable k) : β.Removable k := by
  obtain ⟨⟨b, hb⟩, hready⟩ := hr
  exact ⟨⟨b, h.blocks k b hb⟩, h.ready hready⟩

theorem Shrinks.trans (h : Shrinks β β') (h' : Shrinks β' β'') : Shrinks β β'' := by
  refine ⟨fun k b hb => h.blocks k b (h'.blocks k b hb), fun k w hw => h.witnesses k w (h'.witnesses k w hw), ?_, ?_⟩
  · intro k w hw
    rw [h'.missing k w hw, h.missing k w (h'.witnesses k w hw)]
  · intro p v'' hv''
    obtain ⟨v', hv', hsub'⟩ := h'.links p v'' hv''
    obtain ⟨v, hv, hsub⟩ := h.links p v' hv'
    exact ⟨v, hv, hsub'.trans hsub⟩

theorem Shrinks.children_sub (h : Shrinks β β') (p : B256) : β'.children p ⊆ β.children p := by
  intro k hk
  simp only [children] at hk ⊢
  cases hg : β'.parentToChild.get p with
  | none => simp [hg] at hk
  | some v' =>
    obtain ⟨v, hv, hsub⟩ := h.links p v' hg
    simp only [hg, Option.getD_some] at hk
    simpa [hv] using hsub hk

theorem Shrinks.no_entry (h : Shrinks β β') {p : B256} (hp : β.parentToChild.get p = none) :
    β'.parentToChild.get p = none := by
  cases hg : β'.parentToChild.get p with
  | none => rfl
  | some v' =>
    obtain ⟨v, hv, -⟩ := h.links p v' hg
    rw [hp] at hv
    cases hv

theorem Shrinks.gone (h : Shrinks β β') {k : B256} (hk : β.blocks.get k = none) : β'.blocks.get k = none := by
  cases hg : β'.blocks.get k with
  | none => rfl
  | some b =>
    have := h.blocks k b hg
    rw [hk] at this
    cases this

/-- the links of a smaller buffer weigh no more -/
theorem Shrinks.weight_le (h : Shrinks β β') :
    β'.parentToChild.weight Finset.card ≤ β.parentToChild.weight Finset.card := by
  apply FMap.weight_le
  intro p v' hv'
  obtain ⟨v, hv, hsub⟩ := h.links p v' hv'
  exact ⟨v, hv, Finset.card_le_card hsub⟩

theorem Removes.rfl' (β : BlockBuffer) : Removes β β := ⟨Shrinks.rfl' β, fun _ _ _ _ h => h⟩

theorem Removes.trans (h : Removes β β') (h' : Removes β' β'') : Removes β β'' := by
  refine ⟨h.toShrinks.trans h'.toShrinks, ?_⟩
  intro k b hb hr hk
  exact h'.linked k b hb hr (h.linked k b (h'.blocks k b hb) (h'.ready hr) hk)

/-- a removal deletes no link but its own -/
theorem removes_del (β : BlockBuffer) (hash parentHash : B256) (blocks : FMap B256 Block)
    (hblocks : ∀ h b, blocks.get h = some b → h ≠ hash ∧ β.blocks.get h = some b) (missing : FMap B256 (Finset B256))
    (hmissing : ∀ h, h ≠ hash → missing.get h = β.missingBytecodes.get h) (earliest : FMap ℕ (Finset B256))
    (lru : LruMap) :
    Removes β ⟨blocks, β.witnesses.del hash, missing, removeFromSet β.parentToChild parentHash hash, earliest, lru⟩ := by
  refine ⟨⟨fun h b hb => (hblocks h b hb).2, fun h w hw => (FMap.get_del_some hw).2, ?_, ?_⟩, ?_⟩
  · intro h w hw
    simp only [BlockBuffer.missing]
    rw [hmissing h (FMap.get_del_some hw).1]
  · intro p v' hv'
    exact removeFromSet_sub hv'
  · intro h b hb _ hk
    simp only [children] at hk ⊢
    rw [removeFromSet_getD]
    split_ifs
    · exact Finset.mem_erase.2 ⟨(hblocks h b hb).1, hk⟩
    · exact hk

theorem removeWitness_some {β : BlockBuffer} {hash : B256} {w : ExecutionWitness}
    (h : (β.removeWitness hash).1 = some w) : β.witnesses.get hash = some w ∧ β.missing hash = ∅ := by
  simp only [removeWitness] at h
  split_ifs at h with hm
  exact ⟨h, hm⟩

theorem removeWitness_none {β : BlockBuffer} {hash : B256} (h : (β.removeWitness hash).1 = none) : ¬ β.Ready hash := by
  rintro ⟨⟨w, hw⟩, hm⟩
  simp only [removeWitness] at h
  rw [if_pos hm] at h
  rw [hw] at h
  cases h

/-- taking the witness of a block leaves it unready -/
theorem removeWitness_removes (β : BlockBuffer) (hash : B256) :
    Removes β (β.removeWitness hash).2 ∧ ¬ (β.removeWitness hash).2.Ready hash ∧
      (β.removeWitness hash).2.blocks = β.blocks := by
  simp only [removeWitness]
  split_ifs with hm
  · refine ⟨⟨⟨fun _ _ h => h, fun h w hw => (FMap.get_del_some hw).2, ?_, fun _ v h => ⟨v, h, subset_rfl⟩⟩,
      fun _ _ _ _ h => h⟩, ?_, rfl⟩
    · intro h w hw
      simp only [BlockBuffer.missing]
      rw [FMap.get_del_ne _ (FMap.get_del_some hw).1]
    · rintro ⟨⟨w, hw⟩, -⟩
      simp at hw
  · exact ⟨Removes.rfl' β, fun h => hm h.2, rfl⟩

/-- **Taking one block.** A block that is ready is taken with its witness; otherwise no block goes. -/
theorem removeBlock_cases (β : BlockBuffer) (hash : B256) :
    (¬ β.Removable hash ∧ (β.removeBlock hash).1 = none) ∨
      ∃ b w, β.blocks.get hash = some b ∧ β.witnesses.get hash = some w ∧ β.missing hash = ∅ ∧
        (β.removeBlock hash).1 = some (b, w) ∧ (β.removeBlock hash).2.blocks.get hash = none ∧
        (β.removeBlock hash).2.witnesses.get hash = none := by
  simp only [removeBlock]
  cases hb : β.blocks.get hash with
  | none =>
    refine Or.inl ⟨?_, rfl⟩
    rintro ⟨⟨b, h⟩, -⟩
    cases hb.symm.trans h
  | some b =>
    simp only
    cases hw : β.removeWitness hash with
    | mk ow β' =>
      cases ow with
      | none => exact Or.inl ⟨fun h => removeWitness_none (by rw [hw]) h.2, rfl⟩
      | some w =>
        have hsome : (β.removeWitness hash).1 = some w := by rw [hw]
        obtain ⟨hget, hm⟩ := removeWitness_some hsome
        have hβ' : β' = (β.removeWitness hash).2 := by rw [hw]
        refine Or.inr ⟨b, w, rfl, hget, hm, rfl, ?_, ?_⟩
        · simp [removeFromEarliestBlocks, removeFromParent, lruRemove]
        · rw [hβ']
          simp [removeFromEarliestBlocks, removeFromParent, lruRemove, removeWitness, hm]

theorem removeBlock_removes (β : BlockBuffer) (hash : B256) : Removes β (β.removeBlock hash).2 := by
  simp only [removeBlock]
  cases hb : β.blocks.get hash with
  | none => exact Removes.rfl' β
  | some b =>
    simp only
    cases hw : β.removeWitness hash with
    | mk ow β' =>
      have hβ' : β' = (β.removeWitness hash).2 := by rw [hw]
      cases ow with
      | none =>
        simp only [hβ']
        exact (removeWitness_removes β hash).1
      | some w =>
        have hsome : (β.removeWitness hash).1 = some w := by rw [hw]
        have hm := (removeWitness_some hsome).2
        simp only [hβ', removeWitness, if_pos hm]
        exact removes_del β hash b.parentHash _ (fun h b' h' => FMap.get_del_some h') _
          (fun h hne => FMap.get_del_ne _ hne) _ _

theorem evictBlock_removes (β : BlockBuffer) (hash : B256) :
    Removes β (β.evictBlock hash).2 ∧ (β.evictBlock hash).2.blocks.get hash = none := by
  simp only [evictBlock]
  cases hb : β.blocks.get hash with
  | none => exact ⟨Removes.rfl' β, hb⟩
  | some b =>
    refine ⟨removes_del β hash b.parentHash _ (fun h b' h' => FMap.get_del_some h') _
      (fun h hne => FMap.get_del_ne _ hne) _ _, ?_⟩
    simp [removeFromEarliestBlocks, removeFromParent, lruRemove]

/-! ## What is taken -/

/-- blocks are stored under their hash -/
def Keyed (β : BlockBuffer) : Prop := ∀ h b, β.blocks.get h = some b → b.hash = h

/-- the blocks of a list were taken out of the buffer with their witnesses: they were ready, and each is there once -/
structure Taken (β β' : BlockBuffer) (l : List (Block × ExecutionWitness)) : Prop extends Shrinks β β' where
  taken : ∀ x ∈ l, β.blocks.get x.1.hash = some x.1 ∧ β.witnesses.get x.1.hash = some x.2 ∧ β.missing x.1.hash = ∅
  gone : ∀ x ∈ l, β'.blocks.get x.1.hash = none
  nodup : (l.map fun x => x.1.hash).Nodup

theorem Taken.removable {l : List (Block × ExecutionWitness)} (h : Taken β β' l) {x : Block × ExecutionWitness}
    (hx : x ∈ l) : β.Removable x.1.hash := by
  obtain ⟨hb, hw, hm⟩ := h.taken x hx
  exact ⟨⟨_, hb⟩, ⟨_, hw⟩, hm⟩

theorem Shrinks.keyed (h : Shrinks β β') (hk : β.Keyed) : β'.Keyed := fun k b hb => hk k b (h.blocks k b hb)

theorem Shrinks.taken_nil (h : Shrinks β β') : Taken β β' [] := ⟨h, by simp, by simp, by simp⟩

theorem Taken.append {l l' : List (Block × ExecutionWitness)} (h : Taken β β' l) (h' : Taken β' β'' l') :
    Taken β β'' (l ++ l') := by
  refine ⟨h.toShrinks.trans h'.toShrinks, ?_, ?_, ?_⟩
  · intro x hx
    rcases List.mem_append.1 hx with hx | hx
    · exact h.taken x hx
    · obtain ⟨hb, hw, hm⟩ := h'.taken x hx
      refine ⟨h.blocks _ _ hb, h.witnesses _ _ hw, ?_⟩
      rw [← h.missing _ _ hw]; exact hm
  · intro x hx
    rcases List.mem_append.1 hx with hx | hx
    · exact h'.toShrinks.gone (h.gone x hx)
    · exact h'.gone x hx
  · rw [List.map_append, List.nodup_append]
    refine ⟨h.nodup, h'.nodup, ?_⟩
    intro a ha b hb heq
    obtain ⟨x, hx, rfl⟩ := List.mem_map.1 ha
    obtain ⟨y, hy, rfl⟩ := List.mem_map.1 hb
    have hgone := h.gone x hx
    rw [heq, (h'.taken y hy).1] at hgone
    cases hgone

theorem removeBlock_taken (hk : β.Keyed) (hash : B256) :
    Taken β (β.removeBlock hash).2 (β.removeBlock hash).1.toList ∧ ¬ (β.removeBlock hash).2.Removable hash ∧
      ∀ x ∈ (β.removeBlock hash).1.toList, x.1.hash = hash := by
  have hrem := (removeBlock_removes β hash).toShrinks
  rcases removeBlock_cases β hash with ⟨hnot, hnone⟩ | ⟨b, w, hb, hw, hm, hsome, hgone, -⟩
  · rw [hnone]
    exact ⟨hrem.taken_nil, fun hr => hnot (hrem.removable hr), by simp⟩
  · have hbh := hk _ _ hb
    rw [hsome]
    refine ⟨⟨hrem, ?_, ?_, by simp⟩, ?_, by simpa using hbh⟩
    · intro x hx
      simp only [Option.toList_some, List.mem_singleton] at hx
      subst hx
      simp only [hbh]
      exact ⟨hb, hw, hm⟩
    · intro x hx
      simp only [Option.toList_some, List.mem_singleton] at hx
      subst hx
      simp only [hbh]
      exact hgone
    · rintro ⟨⟨b', hb'⟩, -⟩
      rw [hgone] at hb'
      cases hb'

theorem removeBlocks_cons (β : BlockBuffer) (hash : B256) (hashes : List B256) :
    β.removeBlocks (hash :: hashes) = ((β.removeBlock hash).1.toList ++ ((β.removeBlock hash).2.removeBlocks hashes).1,
      ((β.removeBlock hash).2.removeBlocks hashes).2) := rfl

/-- after trying every hash of a list, none of them can be taken -/
theorem removeBlocks_spec (hk : β.Keyed) (hashes : List B256) :
    Taken β (β.removeBlocks hashes).2 (β.removeBlocks hashes).1 ∧ Removes β (β.removeBlocks hashes).2 ∧
      (∀ h ∈ hashes, ¬ (β.removeBlocks hashes).2.Removable h) ∧
      ∀ x ∈ (β.removeBlocks hashes).1, x.1.hash ∈ hashes := by
  induction hashes generalizing β with
  | nil => exact ⟨(Shrinks.rfl' β).taken_nil, Removes.rfl' β, by simp, by simp [removeBlocks]⟩
  | cons hash hashes ih =>
    obtain ⟨htaken, hnot, hmem⟩ := removeBlock_taken hk hash
    have hrem := removeBlock_removes β hash
    obtain ⟨htaken', hrem', hnot', hmem'⟩ := ih (hrem.toShrinks.keyed hk)
    rw [removeBlocks_cons]
    refine ⟨htaken.append htaken', hrem.trans hrem', ?_, ?_⟩
    · intro h hh
      rcases List.mem_cons.1 hh with rfl | hh
      · exact fun hr => hnot (htaken'.toShrinks.removable hr)
      · exact hnot' h hh
    · intro x hx
      rcases List.mem_append.1 hx with hx | hx
      · rw [hmem x hx]; exact List.mem_cons_self
      · exact List.mem_cons_of_mem _ (hmem' x hx)

/-- links name the parents of the blocks they lead to -/
def LinkSound (β : BlockBuffer) : Prop := ∀ p h b, β.blocks.get h = some b → h ∈ β.children p → b.parentHash = p

theorem Shrinks.linkSound (h : Shrinks β β') (hl : β.LinkSound) : β'.LinkSound :=
  fun p k b hb hk => hl p k b (h.blocks k b hb) (h.children_sub p hk)

/-- forgetting the links of one parent -/
theorem del_entry_shrinks (β : BlockBuffer) (p : B256) :
    Shrinks β { β with parentToChild := β.parentToChild.del p } :=
  ⟨fun _ _ h => h, fun _ _ h => h, fun _ _ _ => rfl, fun _ v h => ⟨v, (FMap.get_del_some h).2, subset_rfl⟩⟩

/-- one round of a worklist loop: `β₂` is what is left after the children of a parent went -/
structure Round (β β₂ : BlockBuffer) (p : B256) (parentChildren : Finset B256) : Prop where
  entry : β.parentToChild.get p = some parentChildren
  shrinks : Shrinks { β with parentToChild := β.parentToChild.del p } β₂

theorem Round.no_entry {β₂ : BlockBuffer} {p : B256} {cs : Finset B256} (h : Round β β₂ p cs) : β₂.parentToChild.get p = none :=
  h.shrinks.no_entry (FMap.get_del_self _ _)

theorem Round.rounds_le {β₂ : BlockBuffer} {p : B256} {cs : Finset B256} {work : List B256}
    {ord : Enumeration B256} {fuel : ℕ} (h : Round β β₂ p cs) (hfuel : β.rounds (p :: work) ≤ fuel + 1) :
    β₂.rounds ((ord.list cs).reverse ++ work) ≤ fuel := by
  have hw : β₂.parentToChild.weight Finset.card ≤ (β.parentToChild.del p).weight Finset.card := h.shrinks.weight_le
  have hdel := FMap.weight_del Finset.card h.entry
  simp only [rounds] at hfuel ⊢
  simp only [List.length_cons, List.length_append, List.length_reverse, ord.length_eq] at hfuel ⊢
  omega

/-- **One round of the removal**: the ready children of a popped parent are taken, and a ready block that stays keeps its
link. -/
theorem removeBlocks_round (ord : Enumeration B256) (hk : β.Keyed) (hl : β.LinkSound) {p : B256} {cs : Finset B256}
    (hg : β.parentToChild.get p = some cs) {r : List (Block × ExecutionWitness) × BlockBuffer}
    (hr : removeBlocks { β with parentToChild := β.parentToChild.del p } (ord.list cs) = r) :
    Round β r.2 p cs ∧ Taken β r.2 r.1 ∧ Removes β r.2 ∧ (∀ h ∈ ord.list cs, ¬ r.2.Removable h) ∧
      ∀ x ∈ r.1, x.1.hash ∈ ord.list cs ∧ x.1.parentHash = p := by
  have hdel := del_entry_shrinks β p
  obtain ⟨htaken, hrem, hnot, hmem⟩ := removeBlocks_spec (hdel.keyed hk) (ord.list cs)
  rw [hr] at htaken hrem hnot hmem
  have htaken' : Taken β r.2 r.1 := by
    have happ := hdel.taken_nil.append htaken
    rwa [List.nil_append] at happ
  refine ⟨⟨hg, htaken.toShrinks⟩, htaken', ⟨htaken'.toShrinks, ?_⟩, hnot, ?_⟩
  · intro k b hb hready hkc
    refine hrem.linked k b hb hready ?_
    simp only [children] at hkc ⊢
    -- a ready child of the popped parent was taken
    by_cases hp : b.parentHash = p
    · rw [hp, hg, Option.getD_some] at hkc
      exact absurd ⟨⟨b, hb⟩, hready⟩ (hnot k ((ord.mem cs k).2 hkc))
    · simpa [FMap.get_del_ne _ hp] using hkc
  · intro x hx
    have hchild : x.1.hash ∈ β.children p := by
      simp only [children]
      rw [hg]
      exact (ord.mem cs _).1 (hmem x hx)
    exact ⟨hmem x hx, hl p _ _ (htaken.taken x hx).1 hchild⟩

/-- **The descendants that are taken.** The list holds ready blocks, each once; parents come before children; every
hash of the worklist and of the list has been popped; and a ready block that stays keeps its link. -/
theorem removeChildren_spec (ord : Enumeration B256) (fuel : ℕ) (work : List B256) (β : BlockBuffer) (hk : β.Keyed)
    (hl : β.LinkSound) (hfuel : β.rounds work ≤ fuel) (hwork : ∀ p ∈ work, ¬ β.Removable p) :
    Taken β (removeChildren ord fuel work β).2 (removeChildren ord fuel work β).1 ∧
      Removes β (removeChildren ord fuel work β).2 ∧
      (∀ p, p ∈ work ∨ (∃ x ∈ (removeChildren ord fuel work β).1, x.1.hash = p) →
        (removeChildren ord fuel work β).2.parentToChild.get p = none) ∧
      (removeChildren ord fuel work β).1.Pairwise fun x y => x.1.parentHash ≠ y.1.hash := by
  induction fuel generalizing work β with
  | zero =>
    have hnil : work = [] := List.eq_nil_of_length_eq_zero (by unfold rounds at hfuel; omega)
    subst hnil
    exact ⟨(Shrinks.rfl' β).taken_nil, Removes.rfl' β, by simp [removeChildren], List.Pairwise.nil⟩
  | succ fuel ih =>
    cases work with
    | nil => exact ⟨(Shrinks.rfl' β).taken_nil, Removes.rfl' β, by simp [removeChildren], List.Pairwise.nil⟩
    | cons p work =>
      simp only [removeChildren]
      cases hg : β.parentToChild.get p with
      | none =>
        simp only
        obtain ⟨htaken, hrem, hpop, hord⟩ := ih work β hk hl
          (by unfold rounds at hfuel ⊢; simp only [List.length_cons] at hfuel; omega)
          fun q hq => hwork q (List.mem_cons_of_mem _ hq)
        refine ⟨htaken, hrem, ?_, hord⟩
        intro q hq
        rcases hq with hq | hq
        · rcases List.mem_cons.1 hq with rfl | hq
          · exact htaken.toShrinks.no_entry hg
          · exact hpop q (Or.inl hq)
        · exact hpop q (Or.inr hq)
      | some cs =>
        simp only
        generalize hr : removeBlocks { β with parentToChild := β.parentToChild.del p } (ord.list cs) = r
        obtain ⟨hround, htaken1, hrem1, hnot1, hmem1⟩ := removeBlocks_round ord hk hl hg hr
        have hshr : Shrinks β r.2 := htaken1.toShrinks
        obtain ⟨htaken2, hrem2, hpop2, hord2⟩ := ih ((ord.list cs).reverse ++ work) r.2 (hshr.keyed hk)
          (hshr.linkSound hl) (hround.rounds_le hfuel) (by
            intro q hq
            rcases List.mem_append.1 hq with hq | hq
            · exact hnot1 q (List.mem_reverse.1 hq)
            · exact fun hr => hwork q (List.mem_cons_of_mem _ hq) (hshr.removable hr))
        refine ⟨htaken1.append htaken2, hrem1.trans hrem2, ?_, ?_⟩
        · intro q hq
          have hwork2 : ∀ q, q ∈ ord.list cs ∨ q ∈ work → q ∈ (ord.list cs).reverse ++ work := by
            intro q hq
            rcases hq with hq | hq
            · exact List.mem_append_left _ (List.mem_reverse.2 hq)
            · exact List.mem_append_right _ hq
          rcases hq with hq | ⟨x, hx, rfl⟩
          · rcases List.mem_cons.1 hq with rfl | hq
            · exact htaken2.toShrinks.no_entry hround.no_entry
            · exact hpop2 q (Or.inl (hwork2 q (Or.inr hq)))
          · rcases List.mem_append.1 hx with hx | hx
            · exact hpop2 _ (Or.inl (hwork2 _ (Or.inl (hmem1 x hx).1)))
            · exact hpop2 _ (Or.inr ⟨x, hx, rfl⟩)
        · rw [List.pairwise_append]
          -- the blocks of this round are children of `p`, which cannot be taken any more
          have hfirst : ∀ x ∈ r.1, ∀ y, β.Removable y → x.1.parentHash ≠ y := by
            intro x hx y hy heq
            exact hwork p List.mem_cons_self ((hmem1 x hx).2 ▸ heq ▸ hy)
          refine ⟨?_, hord2, ?_⟩
          · apply List.Pairwise.imp_of_mem (R := fun _ _ => True)
            · intro x y hx hy _
              exact hfirst x hx _ (htaken1.removable hy)
            · exact List.pairwise_of_forall fun _ _ => trivial
          · intro x hx y hy
            exact hfirst x hx _ (hshr.removable (htaken2.removable hy))

/-- the links of the given block, and of every block taken, are forgotten -/
theorem removeBlockWithChildren_popped (ord : Enumeration B256) (β : BlockBuffer) (p : B256) (hk : β.Keyed)
    (hl : β.LinkSound) (q : B256) (hq : q = p ∨ ∃ x ∈ (removeBlockWithChildren ord β p).1, x.1.hash = q) :
    (removeBlockWithChildren ord β p).2.parentToChild.get q = none := by
  obtain ⟨-, hnot, hmem⟩ := removeBlock_taken hk p
  have hrem := (removeBlock_removes β p).toShrinks
  obtain ⟨-, -, hpop, -⟩ := removeChildren_spec ord ((β.removeBlock p).2.rounds [p] + 1) [p] (β.removeBlock p).2
    (hrem.keyed hk) (hrem.linkSound hl) (Nat.le_succ _) (by intro q hq; rw [List.mem_singleton.1 hq]; exact hnot)
  simp only [removeBlockWithChildren] at hq ⊢
  apply hpop
  rcases hq with rfl | ⟨x, hx, rfl⟩
  · exact Or.inl (List.mem_singleton_self _)
  · rcases List.mem_append.1 hx with hx | hx
    · rw [hmem x hx]
      exact Or.inl (List.mem_singleton_self _)
    · exact Or.inr ⟨x, hx, rfl⟩

/-- **The block and its descendants.** In addition no ready block whose parent is the given block or one of those taken
stays behind. -/
theorem removeBlockWithChildren_spec (ord : Enumeration B256) (β : BlockBuffer) (p : B256) (hk : β.Keyed)
    (hl : β.LinkSound) :
    Taken β (removeBlockWithChildren ord β p).2 (removeBlockWithChildren ord β p).1 ∧
      Removes β (removeBlockWithChildren ord β p).2 ∧
      (∀ h b, (removeBlockWithChildren ord β p).2.blocks.get h = some b →
        (removeBlockWithChildren ord β p).2.Ready h → h ∈ β.children b.parentHash →
        b.parentHash ≠ p ∧ ∀ x ∈ (removeBlockWithChildren ord β p).1, b.parentHash ≠ x.1.hash) ∧
      (removeBlockWithChildren ord β p).1.Pairwise fun x y => x.1.hash = p ∨ x.1.parentHash ≠ y.1.hash := by
  have hpopped := removeBlockWithChildren_popped ord β p hk hl
  obtain ⟨htaken1, hnot, hmem⟩ := removeBlock_taken hk p
  have hrem1 := removeBlock_removes β p
  obtain ⟨htaken2, hrem2, -, hord⟩ := removeChildren_spec ord ((β.removeBlock p).2.rounds [p] + 1) [p]
    (β.removeBlock p).2 (hrem1.toShrinks.keyed hk) (hrem1.toShrinks.linkSound hl) (Nat.le_succ _)
    (by intro q hq; rw [List.mem_singleton.1 hq]; exact hnot)
  simp only [removeBlockWithChildren] at hpopped ⊢
  have hrem := hrem1.trans hrem2
  refine ⟨htaken1.append htaken2, hrem, ?_, ?_⟩
  · intro h b hb hr hc
    have hkept := hrem.linked h b hb hr hc
    -- the entry of a popped hash is gone, and the block's link is not
    have hlive : ∀ q, (q = p ∨ ∃ x ∈ (β.removeBlock p).1.toList ++ (removeChildren ord
        ((β.removeBlock p).2.rounds [p] + 1) [p] (β.removeBlock p).2).1, x.1.hash = q) → b.parentHash ≠ q := by
      rintro q hq rfl
      simp only [children] at hkept
      rw [hpopped _ hq] at hkept
      simp at hkept
    exact ⟨hlive p (Or.inl rfl), fun x hx => hlive _ (Or.inr ⟨x, hx, rfl⟩)⟩
  · rw [List.pairwise_append]
    refine ⟨?_, hord.imp fun h => Or.inr h, fun x hx y _ => Or.inl (hmem x hx)⟩
    apply List.Pairwise.imp_of_mem (R := fun _ _ => True)
    · exact fun hx _ _ => Or.inl (hmem _ hx)
    · exact List.pairwise_of_forall fun _ _ => trivial

/-! ## Witnesses that are taken -/

/-- the witnesses of a list were in the buffer, with no bytecode missing; nothing is asked of the links here -/
structure Released (β β' : BlockBuffer) (l : List (Block × ExecutionWitness)) : Prop extends Shrinks β β' where
  ready : ∀ x ∈ l, ∃ hash, β.witnesses.get hash = some x.2 ∧ β.missing hash = ∅

theorem Shrinks.released (h : Shrinks β β') : Released β β' [] := ⟨h, by simp⟩

theorem Released.append {l l' : List (Block × ExecutionWitness)} (h : Released β β' l) (h' : Released β' β'' l') :
    Released β β'' (l ++ l') := by
  refine ⟨h.toShrinks.trans h'.toShrinks, ?_⟩
  intro x hx
  rcases List.mem_append.1 hx with hx | hx
  · exact h.ready x hx
  · obtain ⟨hash, hw, hm⟩ := h'.ready x hx
    refine ⟨hash, h.witnesses hash _ hw, ?_⟩
    rw [← h.missing hash _ hw]
    exact hm

theorem removeBlock_released (β : BlockBuffer) (hash : B256) :
    Released β (β.removeBlock hash).2 (β.removeBlock hash).1.toList := by
  have hrem := (removeBlock_removes β hash).toShrinks
  rcases removeBlock_cases β hash with ⟨-, hnone⟩ | ⟨b, w, -, hw, hm, hsome, -⟩
  · rw [hnone]
    exact hrem.released
  · rw [hsome]
    refine ⟨hrem, ?_⟩
    intro x hx
    rw [Option.toList_some, List.mem_singleton] at hx
    rw [hx]
    exact ⟨hash, hw, hm⟩

theorem removeBlocks_released (β : BlockBuffer) (hashes : List B256) :
    Released β (β.removeBlocks hashes).2 (β.removeBlocks hashes).1 := by
  induction hashes generalizing β with
  | nil => exact (Shrinks.rfl' β).released
  | cons hash hashes ih =>
    rw [removeBlocks_cons]
    exact (removeBlock_released β hash).append (ih _)

theorem removeChildren_released (ord : Enumeration B256) (fuel : ℕ) (work : List B256) (β : BlockBuffer) :
    Released β (removeChildren ord fuel work β).2 (removeChildren ord fuel work β).1 := by
  induction fuel generalizing work β with
  | zero => exact (Shrinks.rfl' β).released
  | succ fuel ih =>
    cases work with
    | nil => exact (Shrinks.rfl' β).released
    | cons p work =>
      simp only [removeChildren]
      cases hg : β.parentToChild.get p with
      | none => exact ih work β
      | some cs =>
        exact ((del_entry_shrinks β p).released.append (removeBlocks_released _ (ord.list cs))).append (ih _ _)

theorem removeBlockWithChildren_released (ord : Enumeration B256) (β : BlockBuffer) (p : B256) :
    Released β (removeBlockWithChildren ord β p).2 (removeBlockWithChildren ord β p).1 := by
  simp only [removeBlockWithChildren]
  exact (removeBlock_released β p).append (removeChildren_released ord _ _ _)

/-! ## Eviction -/

theorem evictBlocks_removes (hashes : List B256) (β : BlockBuffer) :
    Removes β (β.evictBlocks hashes) ∧ ∀ h ∈ hashes, (β.evictBlocks hashes).blocks.get h = none := by
  induction hashes generalizing β with
  | nil => exact ⟨Removes.rfl' β, by simp⟩
  | cons hash hashes ih =>
    obtain ⟨hrem, hgone⟩ := evictBlock_removes β hash
    obtain ⟨hrem', hgone'⟩ := ih (β.evictBlock hash).2
    refine ⟨hrem.trans hrem', ?_⟩
    intro h hh
    rcases List.mem_cons.1 hh with rfl | hh
    · exact hrem'.toShrinks.gone hgone
    · exact hgone' h hh

theorem evictChildren_removes (ord : Enumeration B256) (fuel : ℕ) (work : List B256) (β : BlockBuffer) :
    Removes β (evictChildren ord fuel work β) := by
  induction fuel generalizing work β with
  | zero => exact Removes.rfl' β
  | succ fuel ih =>
    cases work with
    | nil => exact Removes.rfl' β
    | cons p work =>
      simp only [evictChildren]
      cases hg : β.parentToChild.get p with
      | none => exact ih work β
      | some cs =>
        simp only
        have hdel := del_entry_shrinks β p
        obtain ⟨hrem1, hgone1⟩ := evictBlocks_removes (ord.list cs) { β with parentToChild := β.parentToChild.del p }
        have hrem2 := ih ((ord.list cs).reverse ++ work)
          (BlockBuffer.evictBlocks { β with parentToChild := β.parentToChild.del p } (ord.list cs))
        refine ⟨(hdel.trans hrem1.toShrinks).trans hrem2.toShrinks, ?_⟩
        intro k b hb hr hkc
        have hb1 := hrem2.blocks k b hb
        refine hrem2.linked k b hb hr (hrem1.linked k b hb1 (hrem2.toShrinks.ready hr) ?_)
        simp only [children] at hkc ⊢
        by_cases hp : b.parentHash = p
        · rw [hp, hg, Option.getD_some] at hkc
          have hnone := hgone1 k ((ord.mem cs k).2 hkc)
          rw [hb1] at hnone
          cases hnone
        · simpa [FMap.get_del_ne _ hp] using hkc

theorem popEarliest_removes (ord : Enumeration B256) (n fuel : ℕ) (β : BlockBuffer) :
    Removes β (popEarliest ord n fuel β).2 := by
  induction fuel generalizing β with
  | zero => exact Removes.rfl' β
  | succ fuel ih =>
    simp only [popEarliest]
    split
    · exact Removes.rfl' β
    · split_ifs
      · exact Removes.rfl' β
      · have h := ih { β with earliestBlocks := β.earliestBlocks.del ‹ℕ› }
        exact ⟨⟨h.blocks, h.witnesses, h.missing, h.links⟩, h.linked⟩

theorem evictOldBlocks_removes (ord : Enumeration B256) (β : BlockBuffer) (n : ℕ) :
    Removes β (evictOldBlocks ord β n) := by
  simp only [evictOldBlocks]
  exact ((popEarliest_removes ord n _ β).trans (evictBlocks_removes _ _).1).trans (evictChildren_removes ord _ _ _)

/-- inserting a block adds it and may evict another one -/
theorem insertBlock_removes (β : BlockBuffer) (b : Block) : Removes (β.addBlock b) (β.insertBlock b) := by
  simp only [insertBlock]
  have hlru : Removes (β.addBlock b) ((β.addBlock b).insertHashAndGetEvicted b.hash).2 :=
    ⟨⟨fun _ _ h => h, fun _ _ h => h, fun _ _ _ => rfl, fun _ v h => ⟨v, h, subset_rfl⟩⟩, fun _ _ _ _ h => h⟩
  cases hi : (β.addBlock b).insertHashAndGetEvicted b.hash with
  | mk evicted β₁ =>
    rw [hi] at hlru
    cases evicted with
    | none => exact hlru
    | some e =>
      simp only
      obtain ⟨hrem, hgone⟩ := evictBlock_removes β₁ e
      cases he : β₁.evictBlock e with
      | mk eb β₂ =>
        rw [he] at hrem hgone
        cases eb with
        | none => exact hlru.trans hrem
        | some eb =>
          refine (hlru.trans hrem).trans ?_
          refine ⟨⟨fun _ _ h => h, fun _ _ h => h, fun _ _ _ => rfl, fun p v h => removeFromSet_sub h⟩, ?_⟩
          intro k b' hb _ hk
          simp only [children, removeFromParent] at *
          rw [removeFromSet_getD]
          split_ifs
          · refine Finset.mem_erase.2 ⟨?_, hk⟩
            rintro rfl
            rw [hgone] at hb
            cases hb
          · exact hk

/-- an empty set of missing codes leaves the one of an earlier witness in place -/
theorem missing_insertWitness (β : BlockBuffer) (hash : B256) (w : ExecutionWitness) (m : Finset B256) (k : B256) :
    (β.insertWitness hash w m).missing k = if m ≠ ∅ ∧ k = hash then m else β.missing k := by
  unfold insertWitness missing
  by_cases hm : m ≠ ∅
  · by_cases hkh : k = hash
    · rw [if_pos hm, if_pos ⟨hm, hkh⟩, hkh, FMap.get_set_self]
      rfl
    · rw [if_pos hm, if_neg fun hc => hkh hc.2, FMap.get_set_ne _ _ hkh]
  · rw [if_neg hm, if_neg fun hc => hm hc.1]

/-- a bytecode that has arrived is missing for no block -/
theorem missing_onBytecodeReceived (β : BlockBuffer) (codeHash k : B256) :
    (β.onBytecodeReceived codeHash).2.missing k = (β.missing k).erase codeHash := by
  simp only [onBytecodeReceived, missing]
  simp only [FMap.get_retain]
  cases β.missingBytecodes.get k with
  | none => rfl
  | some m =>
    simp only [Option.bind_some, Option.getD_some]
    by_cases he : m.erase codeHash = ∅
    · rw [if_pos he, he]
      rfl
    · rw [if_neg he]
      rfl

/-! ## Known blocks -/

/-- buffered blocks are stored under their hash and known, and links name the parents of known blocks -/
structure Known (W : World) (β : BlockBuffer) : Prop where
  blocks : ∀ h b, β.blocks.get h = some b → b.hash = h ∧ W.Knows b.toSealedHeader
  links : ∀ p h, h ∈ β.children p → ∃ x, W.header h = some x ∧ x.parentHash = p

variable {W : World}

theorem Known.keyed (h : Known W β) : β.Keyed := fun k b hb => (h.blocks k b hb).1

theorem Known.linkSound (h : Known W β) : β.LinkSound := by
  intro p k b hb hk
  obtain ⟨hbh, hbk⟩ := h.blocks k b hb
  obtain ⟨x, hx, hxp⟩ := h.links p k hk
  simp only [World.Knows] at hbk
  rw [hbh, hx] at hbk
  cases hbk
  exact hxp

theorem Known.shrinks (h : Known W β) (hs : Shrinks β β') : Known W β' :=
  ⟨fun k b hb => h.blocks k b (hs.blocks k b hb), fun p k hk => h.links p k (hs.children_sub p hk)⟩

/-- every block that is taken with the descendants of `p` is `p` or descends from it -/
theorem removeChildren_descends (ord : Enumeration B256) (fuel : ℕ) (work : List B256) {p : B256} (h : Known W β)
    (hwork : ∀ q ∈ work, W.Descends q p) : ∀ x ∈ (removeChildren ord fuel work β).1, W.Descends x.1.hash p := by
  induction fuel generalizing work β with
  | zero =>
    intro x hx
    cases hx
  | succ fuel ih =>
    cases work with
    | nil =>
      intro x hx
      cases hx
    | cons q work =>
      have hrest : ∀ q ∈ work, W.Descends q p := fun q hq => hwork q (List.mem_cons_of_mem _ hq)
      simp only [removeChildren]
      cases hg : β.parentToChild.get q with
      | none => exact ih work h hrest
      | some cs =>
        obtain ⟨-, htaken, -, -, hmem⟩ := removeBlocks_round ord h.keyed h.linkSound hg rfl
        have hlink : ∀ k ∈ ord.list cs, W.Descends k p := by
          intro k hk
          have hchild : k ∈ β.children q := by
            simp only [children]
            rw [hg]
            exact (ord.mem cs k).1 hk
          obtain ⟨y, hy, hyq⟩ := h.links q k hchild
          exact (hwork q List.mem_cons_self).head ⟨y, hy, hyq⟩
        intro x hx
        rcases List.mem_append.1 hx with hx | hx
        · exact hlink _ (hmem x hx).1
        · refine ih _ (h.shrinks htaken.toShrinks) ?_ x hx
          intro k hk
          rcases List.mem_append.1 hk with hk | hk
          · exact hlink k (List.mem_reverse.1 hk)
          · exact hrest k hk

theorem removeBlockWithChildren_descends (ord : Enumeration B256) (p : B256) (h : Known W β) :
    ∀ x ∈ (removeBlockWithChildren ord β p).1, W.Descends x.1.hash p := by
  intro x hx
  simp only [removeBlockWithChildren] at hx
  rcases List.mem_append.1 hx with hx | hx
  · rw [(removeBlock_taken h.keyed p).2.2 x hx]
    exact Relation.ReflTransGen.refl
  · refine removeChildren_descends ord _ [p] (h.shrinks (removeBlock_removes β p).toShrinks) ?_ x hx
    intro q hq
    rw [List.mem_singleton.1 hq]
    exact Relation.ReflTransGen.refl

theorem Known.insertBlock {b : Block} (h : Known W β) (hb : W.Knows b.toSealedHeader) : Known W (β.insertBlock b) := by
  suffices hadd : Known W (β.addBlock b) from hadd.shrinks (insertBlock_removes β b).toShrinks
  refine ⟨?_, ?_⟩
  · intro k b' hg
    simp only [addBlock, FMap.get_set] at hg
    split_ifs at hg with hk
    · cases hg; exact ⟨hk.symm, hb⟩
    · exact h.blocks k b' hg
  · intro p k hk
    rw [children_addBlock] at hk
    split_ifs at hk with hp
    · rcases Finset.mem_insert.1 hk with rfl | hk
      · exact ⟨_, hb, hp.symm⟩
      · exact h.links p k hk
    · exact h.links p k hk

theorem Known.insertWitness (h : Known W β) (hash : B256) (w : ExecutionWitness) (m : Finset B256) :
    Known W (β.insertWitness hash w m) := ⟨h.blocks, h.links⟩

theorem Known.onBytecodeReceived (h : Known W β) (c : B256) : Known W (β.onBytecodeReceived c).2 :=
  ⟨h.blocks, h.links⟩

theorem Known.new (W : World) (limit : ℕ) : Known W (BlockBuffer.new limit) := by
  refine ⟨?_, ?_⟩
  · intro h b hb; simp [BlockBuffer.new] at hb
  · intro p h hh; simp [BlockBuffer.new, children] at hh

end BlockBuffer

end Ress
