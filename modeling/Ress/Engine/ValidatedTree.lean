/-
A node refines a tree of validated blocks.

The abstract node is a tree of blocks, each with the witness it was found valid with (`ProvenBlock`): a block that is
valid on one of its blocks is added, a block of it becomes the head, the tree is cut at a block that a forkchoice update
names as finalized, and a block that a download hands out as finalized is taken on trust (`validation`). Buffer, caches,
downloads and messages are not in it.

- `Refines.insertBlock`, `Refines.updates`, `Refines.receiveOutcome`: what the engine does to the stored blocks and the
  head are steps of the tree.
- `refines_tree`: every run of a node is a run of the tree.
- `served_kept`: so what a node serves it serves until a block above it is finalized.
- `stored_rooted`: and every stored block descends, each block valid on the one before, from genesis or a finalized
  block.
-/
import Ress.Engine.Serving
import Ress.Lib.BlockTree

namespace Ress

/-- a stored block, with the nodes it was found valid with if it has been executed -/
structure ProvenBlock where
  block : Block
  witness : Option (List Bytes)

/-- the second block is valid on the first with its nodes -/
def ProvenBlock.ValidOn (E : Env) (W : World) (code : B256 → Option Bytecode) (parent child : ProvenBlock) : Prop :=
  child.block.parentHash = parent.block.hash ∧ ∃ nodes, child.witness = some nodes ∧
    ∀ (w : ExecutionWitness) sched, w.stateWitness = nodes →
      (W.knowledge code parent.block.hash).judge E sched child.block parent.block.toSealedHeader w = .ok ()

/-- the tree is cut at blocks of the chain that are named, and takes finalized blocks on trust -/
def validation (E : Env) (W : World) (code : B256 → Option Bytecode) (named : B256 → Prop) (finalized : Block → Prop) :
    BlockTree.Rules ProvenBlock where
  height x := x.block.number
  Valid := ProvenBlock.ValidOn E W code
  Trusted x := x.witness = none ∧ finalized x.block
  CutsAt x := named x.block.hash ∧ W.Knows x.block.toSealedHeader

/-- genesis alone -/
def World.root (W : World) : BlockTree ProvenBlock := ⟨{⟨W.genesis, none⟩}, ⟨W.genesis, none⟩, rfl⟩

namespace ChainState

/-- the stored blocks with their witnesses -/
def proven (s : ChainState) : Set ProvenBlock :=
  {x | s.blocksByHash.get x.block.hash = some x.block ∧ s.witnesses.get x.block.hash = x.witness}

variable {s s' : ChainState} {block : Block}

theorem proven_congr (hblocks : s'.blocksByHash = s.blocksByHash) (hwitnesses : s'.witnesses = s.witnesses) :
    s'.proven = s.proven := by
  simp only [proven, hblocks, hwitnesses]

theorem WellIndexed.congr (h : s.WellIndexed) (hblocks : s'.blocksByHash = s.blocksByHash)
    (hindex : s'.blockHashesByNumber = s.blockHashesByNumber) (hwitnesses : s'.witnesses = s.witnesses) :
    s'.WellIndexed := by
  refine ⟨?_, ?_, ?_⟩
  · rw [hblocks]
    exact h.hash_eq
  · unfold hashesAt
    rw [hblocks, hindex]
    exact h.index
  · unfold Stored
    rw [hblocks, hwitnesses]
    exact h.witness

/-- a stored block is in the tree with what is stored as its witness -/
theorem proven_of_stored (h : s.WellIndexed) {hash : B256} (hget : s.blocksByHash.get hash = some block) :
    (⟨block, s.witnesses.get hash⟩ : ProvenBlock) ∈ s.proven := by
  obtain rfl : block.hash = hash := h.hash_eq _ _ hget
  exact ⟨hget, rfl⟩

/-- a new block is added with its witness -/
theorem proven_insertBlock (hnew : ¬ s.Stored block.hash) (nodes : List Bytes) :
    (s.insertBlock block (some nodes)).proven = insert ⟨block, some nodes⟩ s.proven := by
  ext x
  obtain ⟨b, w⟩ := x
  change ((s.blocksByHash.set block.hash block).get b.hash = some b ∧
    (s.witnesses.set block.hash nodes).get b.hash = w) ↔ _
  rw [FMap.get_set, FMap.get_set, Set.mem_insert_iff, ProvenBlock.mk.injEq]
  by_cases hhash : b.hash = block.hash
  · rw [if_pos hhash, if_pos hhash, Option.some.injEq]
    constructor
    · rintro ⟨rfl, rfl⟩
      exact Or.inl ⟨rfl, rfl⟩
    · rintro (⟨rfl, rfl⟩ | ⟨hget, -⟩)
      · exact ⟨rfl, rfl⟩
      · exact absurd ⟨b, hhash ▸ hget⟩ hnew
  · rw [if_neg hhash, if_neg hhash]
    exact (or_iff_right fun heq => hhash (congrArg (fun x : Block => x.hash) heq.1)).symm

/-- so is a finalized one, which has none -/
theorem proven_insertFinalized (h : s.WellIndexed) (hnew : ¬ s.Stored block.hash) :
    (s.insertBlock block none).proven = insert ⟨block, none⟩ s.proven := by
  ext x
  obtain ⟨b, w⟩ := x
  change ((s.blocksByHash.set block.hash block).get b.hash = some b ∧ s.witnesses.get b.hash = w) ↔ _
  rw [FMap.get_set, Set.mem_insert_iff, ProvenBlock.mk.injEq]
  by_cases hhash : b.hash = block.hash
  · have hnone : s.witnesses.get block.hash = none := by
      by_contra hsome
      obtain ⟨w, hw⟩ := Option.ne_none_iff_exists'.1 hsome
      exact hnew (h.witness _ _ hw)
    rw [if_pos hhash, Option.some.injEq, hhash, hnone]
    constructor
    · rintro ⟨rfl, rfl⟩
      exact Or.inl ⟨rfl, rfl⟩
    · rintro (⟨rfl, rfl⟩ | ⟨hget, -⟩)
      · exact ⟨rfl, rfl⟩
      · exact absurd ⟨b, hhash ▸ hget⟩ hnew
  · rw [if_neg hhash]
    exact (or_iff_right fun heq => hhash (congrArg (fun x : Block => x.hash) heq.1)).symm

/-- a block that is stored already is stored again -/
theorem proven_insertSame (hget : s.blocksByHash.get block.hash = some block) :
    (s.insertBlock block none).proven = s.proven := by
  have hsame : s.blocksByHash.set block.hash block = s.blocksByHash := by
    ext k
    rw [FMap.get_set]
    split_ifs with hk
    · rw [hk, hget]
    · rfl
  exact proven_congr hsame rfl

/-- finalization cuts off what is below -/
theorem PrunedExactly.proven {finalized : Block} (h : PrunedExactly finalized s s') :
    s'.proven = {x ∈ s.proven | finalized.number ≤ x.block.number} := by
  ext x
  obtain ⟨b, w⟩ := x
  constructor
  · rintro ⟨hb, hw⟩
    obtain ⟨hold, hle⟩ := (h.blocks _ _).1 hb
    refine ⟨⟨hold, ?_⟩, hle⟩
    cases w with
    | none =>
      by_contra hne
      obtain ⟨nodes, hnodes⟩ := Option.ne_none_iff_exists'.1 hne
      cases hw.symm.trans ((h.witnesses _ _).2 ⟨hnodes, b, hold, hle⟩)
    | some nodes => exact ((h.witnesses _ _).1 hw).1
  · rintro ⟨⟨hb, hw⟩, hle⟩
    refine ⟨(h.blocks _ _).2 ⟨hb, hle⟩, ?_⟩
    cases w with
    | none =>
      by_contra hne
      obtain ⟨nodes, hnodes⟩ := Option.ne_none_iff_exists'.1 hne
      cases hw.symm.trans ((h.witnesses _ _).1 hnodes).1
    | some nodes => exact (h.witnesses _ _).2 ⟨hw, b, hb, hle⟩

theorem WellIndexed.finalize (h : s.WellIndexed) (hash : B256) : (s.removeBlocksOnFinalized hash).WellIndexed := by
  cases hf : s.blocksByHash.get hash with
  | none =>
    simp only [ChainState.removeBlocksOnFinalized, hf]
    exact h
  | some finalized =>
    refine (h.removeBlocksOnFinalized hf).wellIndexed h fun n => ?_
    simp only [ChainState.removeBlocksOnFinalized, hf]
    rw [(popCanonicalHashes_frame _ _ _).2, popBlocks_index _ _ s le_rfl]

end ChainState

namespace EngineTree

variable {E : Env} {W : World} {code : B256 → Option Bytecode} {laws : EvmLaws E} {named : B256 → Prop}
  {finalized : Block → Prop} {a₀ a : BlockTree ProvenBlock} {t t' : EngineTree E}

/-- the tree has the stored blocks and the head -/
structure Represents (t : EngineTree E) (a : BlockTree ProvenBlock) : Prop where
  blocks : a.blocks = t.provider.chainState.proven
  head : a.head.block.numHash = t.canonicalHead

/-- the stored blocks and the head are a tree that comes from this one -/
structure Refines (laws : EvmLaws E) (W : World) (code : B256 → Option Bytecode) (named : B256 → Prop)
    (finalized : Block → Prop) (a₀ : BlockTree ProvenBlock) (t : EngineTree E) : Prop where
  holds : HoldsTo (settlement laws W code) W t
  indexed : t.provider.chainState.WellIndexed
  tree : ∃ a, BlockTree.Moves (validation E W code named finalized) a₀ a ∧ t.Represents a

theorem HoldsTo.forgets {J : Judgement E} (h : HoldsTo J W t) (hf : Forgets t t') : HoldsTo J W t' := by
  obtain ⟨hcoherent, havailable, hcodes, hwitnesses, hstored, hjudged⟩ := h
  rw [hf.same]
  exact ⟨⟨⟨hcoherent.wf.chain, hcoherent.wf.buffer⟩, hcoherent.chain⟩, ⟨havailable.buffered, havailable.inserted⟩,
    hcodes, hwitnesses, hstored, hjudged⟩

/-- what changes neither blocks, witnesses nor head -/
theorem Refines.congr (h : Refines laws W code named finalized a₀ t) (hholds : HoldsTo (settlement laws W code) W t')
    (hstate : t'.provider.chainState = t.provider.chainState) (hhead : t'.canonicalHead = t.canonicalHead) :
    Refines laws W code named finalized a₀ t' := by
  obtain ⟨a, hmoves, hblocks, ha⟩ := h.tree
  refine ⟨hholds, ?_, a, hmoves, ?_, ha.trans hhead.symm⟩
  · rw [hstate]
    exact h.indexed
  · rw [hstate]
    exact hblocks

/-- **A call of `insert_block`** adds a block that is valid on a stored one, or changes nothing. -/
theorem Refines.insertBlock (h : Refines laws W code named finalized a₀ t) (hleaf : LeafLaw E)
    (hmap : StateRoot.StorageTrieMap E) (hread : t.provider.database.readError = none) (sched : StateRoot.Schedule)
    {block : Block} {mw : Option ExecutionWitness} (hknown : W.Knows block.toSealedHeader)
    (hmw : ∀ w, mw = some w → w.bytecodeHashes E.codec ⊆ t.codes) :
    Refines laws W code named finalized a₀ (t.insertBlock sched block mw).2 ∧
      (t.insertBlock sched block mw).2.provider.database = t.provider.database := by
  obtain ⟨hholds, hdatabase⟩ := h.holds.insertBlock (settlement_upholds laws hleaf hmap W code) hread sched hknown
    (fun w hw => ⟨trivial, hmw w hw⟩)
  refine ⟨?_, hdatabase⟩
  have hinserts := insertBlock_inserts t sched block mw
  generalize (t.insertBlock sched block mw).1 = r at hinserts
  generalize (t.insertBlock sched block mw).2 = t' at hinserts hholds ⊢
  cases hinserts with
  | alreadySeen => exact h.congr hholds rfl rfl
  | refused => exact h.congr hholds rfl rfl
  | disconnected => exact h.congr hholds rfl rfl
  | noWitness => exact h.congr hholds rfl rfl
  | valid w hw hnew hp event =>
    subst hw
    -- the verdict of the call holds for everyone
    have hsettles : Settles laws W code block (some w) (.ok ()) :=
      hholds.judged _ (List.mem_append_right _ List.mem_cons_self) _ rfl
    obtain ⟨parent, hparentKnown, hparentHash, hvalid⟩ := hsettles.validWith
    obtain ⟨p, hget, -⟩ := hp
    obtain ⟨hhash, hpKnown⟩ := h.holds.coherent.wf.chain.state.known _ _ hget
    obtain rfl : parent = p.toSealedHeader := hparentKnown.eq hpKnown (hparentHash.trans hhash.symm)
    obtain ⟨a, hmoves, hblocks, ha⟩ := h.tree
    have hmem : (⟨p, t.provider.chainState.witnesses.get block.parentHash⟩ : ProvenBlock) ∈ a.blocks := by
      rw [hblocks]
      exact ChainState.proven_of_stored h.indexed hget
    have hindexed : (t.provider.chainState.insertBlock block (some w.stateWitness)).WellIndexed :=
      h.indexed.insertBlock (fun b hb => absurd ⟨b, hb⟩ hnew) _
    refine ⟨hholds, hindexed, a.extend ⟨block, some w.stateWitness⟩,
      hmoves.tail (.extend hmem ⟨hhash.symm, _, rfl, hvalid⟩), ?_, ha⟩
    calc insert ⟨block, some w.stateWitness⟩ a.blocks
        = insert ⟨block, some w.stateWitness⟩ t.provider.chainState.proven := by rw [hblocks]
      _ = (t.provider.chainState.insertBlock block (some w.stateWitness)).proven :=
          (ChainState.proven_insertBlock hnew w.stateWitness).symm

/-- **A chain update** makes a stored block the head. -/
theorem Refines.onCanonicalChainUpdate (h : Refines laws W code named finalized a₀ t) {target : B256}
    {update : NewCanonicalChain} (hu : t.onNewHead target = some update)
    (hholds : HoldsTo (settlement laws W code) W (t.onCanonicalChainUpdate update)) :
    Refines laws W code named finalized a₀ (t.onCanonicalChainUpdate update) := by
  obtain ⟨hblocks', hindex, hwitnesses⟩ := ChainState.onChainUpdate_frame update.new update.old t.provider.chainState
  obtain ⟨htip, -, -⟩ := ChainState.onNewHead_stored hu
  obtain ⟨b, hget, hb⟩ := ChainState.sealedHeader_some.1 htip
  obtain ⟨a, hmoves, hblocks, -⟩ := h.tree
  have hmem : (⟨b, t.provider.chainState.witnesses.get target⟩ : ProvenBlock) ∈ a.blocks := by
    rw [hblocks]
    exact ChainState.proven_of_stored h.indexed hget
  refine ⟨hholds, h.indexed.congr hblocks' hindex hwitnesses, _, hmoves.tail (.choose hmem), ?_, ?_⟩
  · exact hblocks.trans (ChainState.proven_congr hblocks' hwitnesses).symm
  · exact congrArg SealedHeader.numHash hb

theorem Refines.makeCanonical (h : Refines laws W code named finalized a₀ t) (target : B256) :
    Refines laws W code named finalized a₀ (t.makeCanonical target) := by
  have hholds := (h.holds.makeCanonical target).1
  unfold EngineTree.makeCanonical at hholds ⊢
  cases hu : t.onNewHead target with
  | none => exact h
  | some update =>
    rw [hu] at hholds
    exact h.onCanonicalChainUpdate hu hholds

/-- **A finalized hash** that is canonical cuts the tree, where the update may name it. -/
theorem Refines.onFinalized (h : Refines laws W code named finalized a₀ t) {hash : B256}
    (hcanonical : hash ≠ 0 → t.provider.chainState.IsHashCanonical hash) (hnamed : hash ≠ 0 → named hash)
    (sched : StateRoot.Schedule) (hholds : HoldsTo (settlement laws W code) W (t.onFinalized sched hash)) :
    Refines laws W code named finalized a₀ (t.onFinalized sched hash) := by
  have hchain := onFinalized_chain t sched hash
  have hstate := congrArg Chain.state hchain
  have hhead := congrArg Chain.head hchain
  rw [apply_ite Chain.state] at hstate
  rw [apply_ite Chain.head, ite_self] at hhead
  change (t.onFinalized sched hash).provider.chainState =
    if hash ≠ 0 then t.provider.chainState.removeBlocksOnFinalized hash else t.provider.chainState at hstate
  by_cases hz : hash = 0
  · rw [if_neg (not_not.2 hz)] at hstate
    exact h.congr hholds hstate hhead
  rw [if_pos hz] at hstate
  cases hget : t.provider.chainState.blocksByHash.get hash with
  | none =>
    refine h.congr hholds (hstate.trans ?_) hhead
    simp only [ChainState.removeBlocksOnFinalized, hget]
  | some root =>
    obtain ⟨a, hmoves, hblocks, ha⟩ := h.tree
    have hmem : (⟨root, t.provider.chainState.witnesses.get hash⟩ : ProvenBlock) ∈ a.blocks := by
      rw [hblocks]
      exact ChainState.proven_of_stored h.indexed hget
    obtain ⟨hroot, hknown⟩ := h.holds.coherent.wf.chain.state.known _ _ hget
    have hcut : named root.hash ∧ W.Knows root.toSealedHeader := ⟨hroot ▸ hnamed hz, hknown⟩
    have hle : root.number ≤ a.head.block.number := by
      have hbelow : root.number ≤ t.canonicalHead.number :=
        h.holds.coherent.chain.toSound.number_le (hcanonical hz) hget
      rw [← ha] at hbelow
      exact hbelow
    refine ⟨hholds, ?_, _, hmoves.tail (.cut hmem hcut hle), ?_, ha.trans hhead.symm⟩
    · rw [hstate]
      exact h.indexed.finalize hash
    · rw [hstate, (h.indexed.removeBlocksOnFinalized hget).proven, ← hblocks]
      rfl

/-- **A forkchoice update** whose finalized hash may be named. -/
theorem Refines.updates (h : Refines laws W code named finalized a₀ t) {sched : StateRoot.Schedule}
    {state : ForkchoiceState} {r : UpdateAnswer} (hu : Updates sched t state r t')
    (hnamed : state.finalizedBlockHash ≠ 0 → named state.finalizedBlockHash) :
    Refines laws W code named finalized a₀ t' := by
  have hholds := h.holds.updates hu
  have hforgets : ∀ {t₁ : EngineTree E}, Forgets t t₁ → Refines laws W code named finalized a₀ t₁ :=
    fun hf => h.congr (h.holds.forgets hf) (by rw [hf.provider]) hf.canonicalHead
  have hupdate : ∀ {t₁ : EngineTree E} {update : NewCanonicalChain}, Forgets t t₁ →
      t.onNewHead state.headBlockHash = some update →
      Refines laws W code named finalized a₀ (t₁.onCanonicalChainUpdate update) := by
    intro t₁ update hf hnew
    have hnew₁ : t₁.onNewHead state.headBlockHash = some update := by
      rw [← hnew]
      unfold EngineTree.onNewHead
      rw [hf.provider, hf.canonicalHead]
    have hmade := (hforgets hf).makeCanonical state.headBlockHash
    unfold EngineTree.makeCanonical at hmade
    rw [hnew₁] at hmade
    exact hmade
  cases hu with
  | zeroHead => exact h
  | invalid _ _ _ hf => exact hforgets hf
  | currentInconsistent _ hf => exact hforgets hf
  | current _ hf => exact hforgets hf
  | updateInconsistent _ hf _ hnew => exact hupdate hf hnew
  | updated _ hf _ hnew hc => exact (hupdate hf hnew).onFinalized hc.1 hnamed sched hholds
  | stored _ hf => exact hforgets hf
  | syncing _ hf => exact hforgets hf

theorem Refines.shrinks (h : Refines laws W code named finalized a₀ t) {buffer : BlockBuffer}
    (hs : BlockBuffer.Shrinks t.blockBuffer buffer) : Refines laws W code named finalized a₀ (t.withBuffer buffer) :=
  h.congr (h.holds.shrinks hs) rfl rfl

/-- the calls that a message or an outcome leads to, over one database -/
theorem Refines.calls (laws : EvmLaws E) (hleaf : LeafLaw E) (hmap : StateRoot.StorageTrieMap E) (W : World)
    (code : B256 → Option Bytecode) (named : B256 → Prop) (finalized : Block → Prop) (a₀ : BlockTree ProvenBlock)
    {D : RessDatabase} (hread : D.readError = none) :
    Calls (E := E) (fun t => Refines laws W code named finalized a₀ t ∧ t.provider.database = D) fun block mw =>
      W.Knows block.toSealedHeader ∧ ∀ w, mw = some w → w.bytecodeHashes E.codec ⊆ D.bytecodes.keys where
  cache {t cache} h := by
    obtain ⟨h, hD⟩ := h
    obtain ⟨hcoherent, havailable, hcodes, hwitnesses, hstored, hjudged⟩ := h.holds
    exact ⟨h.congr ⟨⟨⟨hcoherent.wf.chain, hcoherent.wf.buffer⟩, hcoherent.chain⟩,
      ⟨havailable.buffered, havailable.inserted⟩, hcodes, hwitnesses, hstored, hjudged⟩ rfl rfl, hD⟩
  insertBlock {t} sched {block mw} hq h := by
    obtain ⟨h, rfl⟩ := h
    exact h.insertBlock hleaf hmap hread sched hq.1 hq.2
  makeCanonical {t} target h := by
    obtain ⟨h, rfl⟩ := h
    exact ⟨h.makeCanonical target, (h.holds.makeCanonical target).2⟩
  takes {t} ord parentHash h := by
    obtain ⟨h, rfl⟩ := h
    have htaken := BlockBuffer.removeBlockWithChildren_taken ord t.blockBuffer parentHash h.holds.coherent.wf.buffer.keyed
    refine ⟨⟨h.shrinks htaken.toShrinks, rfl⟩, fun x hx => ?_⟩
    obtain ⟨hblock, hwitness, hmissing⟩ := htaken.taken x hx
    refine ⟨(h.holds.coherent.wf.buffer.blocks _ _ hblock).2, fun w hw => ?_⟩
    rw [← Option.some.inj hw]
    exact h.holds.available.buffered.ready hwitness hmissing

end EngineTree

namespace ConsensusEngine

open EngineTree (Follows HoldsTo Refines)

variable {E : Env} {W : World} {code : B256 → Option Bytecode} {laws : EvmLaws E} {named : B256 → Prop}
  {finalized : Block → Prop} {a₀ : BlockTree ProvenBlock} {e : ConsensusEngine E}

/-- a finalized block that is handed out may be taken on trust -/
def OutcomeFinal (finalized : Block → Prop) : DownloadData → Prop
  | .finalizedBlock block _ => finalized block
  | _ => True

/-- **A finalized block** becomes the head, and is added if it is new. -/
theorem onFinalizedBlock_refines (h : Refines laws W code named finalized a₀ e.tree) {block : Block}
    {ancestors : List SealedHeader} (hfinal : finalized block)
    (hsame : ∀ b, e.tree.provider.chainState.blocksByHash.get block.hash = some b → b = block)
    (hholds : HoldsTo (settlement laws W code) W (e.tree.onFinalizedBlock block ancestors)) :
    Refines laws W code named finalized a₀ (e.tree.onFinalizedBlock block ancestors) := by
  have hchain := EngineTree.onFinalizedBlock_chain e.tree block ancestors
  have hstate := congrArg Chain.state hchain
  have hhead := congrArg Chain.head hchain
  change (e.tree.onFinalizedBlock block ancestors).provider.chainState = _ at hstate
  change (e.tree.onFinalizedBlock block ancestors).canonicalHead = _ at hhead
  have hcanonical : (e.tree.provider.chainState.insertCanonicalHash block.number block.hash).WellIndexed :=
    h.indexed.congr rfl rfl rfl
  have hinserted := hcanonical.insertBlock hsame none
  obtain ⟨hblocks', hindex, hwitnesses⟩ := ChainState.insertCanonicalHashes_frame ancestors
    ((e.tree.provider.chainState.insertCanonicalHash block.number block.hash).insertBlock block none)
  obtain ⟨a, hmoves, hblocks, -⟩ := h.tree
  have hproven : (e.tree.onFinalizedBlock block ancestors).provider.chainState.proven =
      ((e.tree.provider.chainState.insertCanonicalHash block.number block.hash).insertBlock block none).proven := by
    rw [hstate]
    exact ChainState.proven_congr hblocks' hwitnesses
  have hindexed : (e.tree.onFinalizedBlock block ancestors).provider.chainState.WellIndexed := by
    rw [hstate]
    exact hinserted.congr hblocks' hindex hwitnesses
  by_cases hs : e.tree.Stored block.hash
  · obtain ⟨b, hget⟩ := hs
    obtain rfl := hsame b hget
    have hmem : (⟨b, e.tree.provider.chainState.witnesses.get b.hash⟩ : ProvenBlock) ∈ a.blocks := by
      rw [hblocks]
      exact ChainState.proven_of_stored h.indexed hget
    refine ⟨hholds, hindexed, _, hmoves.tail (.choose hmem), ?_, hhead.symm⟩
    rw [hproven, hblocks]
    exact (ChainState.proven_insertSame hget).symm
  · refine ⟨hholds, hindexed, a.adopt ⟨block, none⟩, hmoves.tail (.adopt ⟨rfl, hfinal⟩), ?_, hhead.symm⟩
    calc insert ⟨block, none⟩ a.blocks
        = insert ⟨block, none⟩ e.tree.provider.chainState.proven := by rw [hblocks]
      _ = ((e.tree.provider.chainState.insertCanonicalHash block.number block.hash).insertBlock block none).proven :=
          (ChainState.proven_insertFinalized hcanonical hs).symm
      _ = (e.tree.onFinalizedBlock block ancestors).provider.chainState.proven := hproven.symm

/-- **The receipt of an outcome.** -/
theorem receiveOutcome_refines (h : Refines laws W code named finalized a₀ e.tree) (sched : StateRoot.Schedule)
    {data : DownloadData} (hfits : OutcomeFits W e.tree data)
    (hserved : OutcomeServed (settlement laws W code) data) (hsame : SameFinalized e.tree data)
    (hfinal : OutcomeFinal finalized data) :
    Refines laws W code named finalized a₀ (e.receiveOutcome sched data).2.tree ∧
      (e.receiveOutcome sched data).2.tree.provider.database.readError = e.tree.provider.database.readError := by
  obtain ⟨hholds, hread⟩ := receiveOutcome_holdsTo h.holds sched hfits hserved
  refine ⟨?_, hread⟩
  have hreceived := receiveOutcome_received e sched data
  generalize e.receiveOutcome sched data = received at hreceived hholds ⊢
  cases hreceived with
  | finalized hrecover => exact onFinalizedBlock_refines h hfinal hsame hholds
  | unrecovered hrecover => exact h
  | buffered hrecover => exact h.congr hholds rfl rfl
  | dropped hrecover => exact h
  | lookupFailed hmissing => exact h
  | complete hmissing => exact h.congr hholds rfl rfl
  | incomplete hmissing hne => exact h.congr hholds rfl rfl
  | @bytecode codeHash bytecode =>
    refine h.congr hholds ?_ ?_
    · unfold EngineTree.onBytecode RessProvider.insertBytecode
      cases e.tree.provider.database.insertBytecode codeHash bytecode <;> rfl
    · unfold EngineTree.onBytecode RessProvider.insertBytecode
      cases e.tree.provider.database.insertBytecode codeHash bytecode <;> rfl

/-- **An unlocked block.** -/
theorem insertUnlocked_refines (hleaf : LeafLaw E) (hmap : StateRoot.StorageTrieMap E)
    (h : Refines laws W code named finalized a₀ e.tree) (hread : e.tree.provider.database.readError = none)
    (sched : StateRoot.Schedule) (hash : B256) :
    Refines laws W code named finalized a₀ (e.insertUnlocked sched hash).tree ∧
      (e.insertUnlocked sched hash).tree.provider.database.readError = none := by
  have hcalls := Refines.calls laws hleaf hmap W code named finalized a₀ hread
  have htaken := h.shrinks (BlockBuffer.removeBlock_removes e.tree.blockBuffer hash).toShrinks
  obtain ⟨hafter, hdatabase⟩ := insertUnlocked_byCalls hcalls e sched hash ⟨htaken, rfl⟩ (by
    intro b w hb hw hm
    obtain ⟨hhash, hknown⟩ := h.holds.coherent.wf.buffer.blocks _ _ hb
    refine ⟨hknown, fun w' hw' => ?_⟩
    rw [← Option.some.inj hw']
    exact h.holds.available.buffered.ready hw hm)
  rw [hdatabase]
  exact ⟨hafter, hread⟩

/-- the finalized hash of an update may be named -/
def MessageNames (named : B256 → Prop) : BeaconEngineMessage E → Prop
  | .forkchoiceUpdated state _ _ _ => state.finalizedBlockHash ≠ 0 → named state.finalizedBlockHash
  | _ => True

/-- **A message that waits.** -/
theorem onEngineMessage_refines (hleaf : LeafLaw E) (hmap : StateRoot.StorageTrieMap E)
    (h : Refines laws W code named finalized a₀ e.tree) (hread : e.tree.provider.database.readError = none)
    (sched : StateRoot.Schedule) {message : BeaconEngineMessage E} (hknown : EngineTree.MessageKnown W message)
    (hnames : MessageNames named message) :
    Refines laws W code named finalized a₀ (e.onEngineMessage sched message).tree := by
  have hfollows : ∀ {t t' : EngineTree E}, Follows t t' → Refines laws W code named finalized a₀ t →
      Refines laws W code named finalized a₀ t' := fun hf ht => hf.keeps (fun target => ht.makeCanonical target) ht
  have hmessages := onEngineMessage_messages e sched message
  cases message with
  | newPayload payload tx =>
    have hcalls := Refines.calls laws hleaf hmap W code named finalized a₀ hread
    have htaken := h.shrinks (BlockBuffer.removeWitness_removes e.tree.blockBuffer
      (E.validator.blockHash payload)).1.toShrinks
    refine hfollows (onEngineMessage_payload e sched payload tx) ?_
    exact (hcalls.onNewPayload sched
      (fun b hb => ⟨hknown b hb, (h.holds.available.takeWitness _).2⟩) ⟨htaken, rfl⟩).1
  | forkchoiceUpdated state attrs tx version =>
    cases hmessages with
    | forkchoice hu htrack hf =>
      have hupdated := h.updates hu hnames
      refine hfollows hf (hupdated.congr (hupdated.holds.tracks htrack) ?_ htrack.canonicalHead)
      rw [htrack.provider]
  | transitionConfigurationExchanged => exact h

end ConsensusEngine

/-! ## Runs -/

namespace Node

open EngineTree (Refines Represents)
open ConsensusEngine (MessageNames OutcomeFinal)

variable {E : Env} {W : World} {code : B256 → Option Bytecode} {laws : EvmLaws E} {named : B256 → Prop}
  {finalized : Block → Prop} {a₀ : BlockTree ProvenBlock} {n : Node E}

/-- the finalized hash of an update is named, and a finalized block that is handed out may be taken on trust -/
def EventNames (named : B256 → Prop) (finalized : Block → Prop) (n : Node E) : NodeEvent E → Prop
  | .arrive message => MessageNames named message
  | .poll io => ∀ data, n.engine.delivered io = some data → OutcomeFinal finalized data

/-- the node has a tree that comes from this one, and what waits names what may be named -/
structure Refined (laws : EvmLaws E) (W : World) (code : B256 → Option Bytecode) (named : B256 → Prop)
    (finalized : Block → Prop) (a₀ : BlockTree ProvenBlock) (n : Node E) : Prop where
  tree : Refines laws W code named finalized a₀ n.engine.tree
  queue : ∀ message ∈ n.engine.fromBeaconEngine, EngineTree.MessageKnown W message ∧ MessageNames named message

/-- an event as the run has it -/
def EventRefines (laws : EvmLaws E) (W : World) (code : B256 → Option Bytecode) (named : B256 → Prop)
    (finalized : Block → Prop) (n : Node E) (event : NodeEvent E) : Prop :=
  ((EventFits W n event ∧ EventServed (settlement laws W code) n event) ∧ EventSame n event) ∧
    EventNames named finalized n event

/-- **One event.** -/
theorem Refined.step (hleaf : LeafLaw E) (hmap : StateRoot.StorageTrieMap E)
    (h : Refined laws W code named finalized a₀ n) {event : NodeEvent E}
    (hevent : EventRefines laws W code named finalized n event) :
    Refined laws W code named finalized a₀ (n.step event) := by
  obtain ⟨⟨⟨hfits, hserved⟩, hsame⟩, hnames⟩ := hevent
  have hafter : ∀ io, Refines laws W code named finalized a₀ (n.engine.afterPoll io).tree := by
    intro io
    obtain ⟨hcoherent, havailable, hcodes, hwitnesses, hstored, hjudged⟩ := h.tree.holds
    exact h.tree.congr ⟨⟨⟨hcoherent.wf.chain, hcoherent.wf.buffer⟩, hcoherent.chain⟩,
      ⟨havailable.buffered, havailable.inserted⟩, hcodes, hwitnesses, hstored, hjudged⟩ rfl rfl
  refine ⟨step_core (P := fun x => Refines laws W code named finalized a₀ x.1) n event h.tree ?_ ?_ ?_, ?_⟩
  · exact fun io _ _ => hafter io
  · intro io e message heq hhandles hcore
    subst heq
    have htree : e.tree = (n.engine.afterPoll io).tree := congrArg Prod.fst hcore
    have hread : e.tree.provider.database.readError = none := by
      rw [htree]
      exact hserved.1
    obtain ⟨hknown, hmessage⟩ := h.queue message (ConsensusEngine.handles_mem hhandles)
    exact ConsensusEngine.onEngineMessage_refines hleaf hmap (htree ▸ hafter io) hread io.sched hknown hmessage
  · intro io data heq hdata
    subst heq
    refine (ConsensusEngine.onDownloadOutcome_tree
      (P := fun _ t => Refines laws W code named finalized a₀ t ∧ t.provider.database.readError = none)
      _ io.sched data ?_ ?_).1
    · obtain ⟨hreceived, hread⟩ := ConsensusEngine.receiveOutcome_refines (hafter io) io.sched (hfits data hdata)
        (hserved.2 data hdata) (hsame data hdata) (hnames data hdata)
      exact ⟨hreceived, hread.trans hserved.1⟩
    · exact fun e hash _ he => ConsensusEngine.insertUnlocked_refines hleaf hmap he.1 he.2 io.sched hash
  · intro message hmessage
    rcases step_queue n event message hmessage with hold | rfl
    · exact h.queue message hold
    · exact ⟨hfits, hnames⟩

/-- a new node is genesis alone -/
theorem refined_launch (hleaf : LeafLaw E) (hmap : StateRoot.StorageTrieMap E) (laws : EvmLaws E) (W : World)
    {code : B256 → Option Bytecode} (named : B256 → Prop) (finalized : Block → Prop) (database : RessDatabase)
    (hcodes : ∀ hash bytecode, database.bytecodes.get hash = some bytecode → code hash = some bytecode) :
    Refined laws W code named finalized W.root (launch E database W.genesis) := by
  have hreached : (launch E database W.genesis).Reached (settlement laws W code) W :=
    ⟨database, [], hcodes, trivial, rfl⟩
  have hholds := hreached.holdsTo (EngineTree.settlement_upholds laws hleaf hmap W code)
  have hnew : ¬ ChainState.empty.Stored W.genesis.hash := by
    rintro ⟨b, hb⟩
    cases (FMap.get_empty W.genesis.hash).symm.trans hb
  have hindexed : (ChainState.empty.insertBlock W.genesis none).WellIndexed :=
    ChainState.WellIndexed.empty.insertBlock (fun b hb => absurd ⟨b, hb⟩ hnew) none
  have hnothing : ChainState.empty.proven = ∅ := by
    refine Set.eq_empty_iff_forall_notMem.2 fun x hx => hnew ?_
    cases (FMap.get_empty x.block.hash).symm.trans hx.1
  refine ⟨⟨hholds, hindexed.congr rfl rfl rfl, W.root, .refl, ?_, rfl⟩, fun message hm => absurd hm List.not_mem_nil⟩
  calc ({⟨W.genesis, none⟩} : Set ProvenBlock)
      = insert ⟨W.genesis, none⟩ ChainState.empty.proven := by rw [hnothing, insert_empty_eq]
    _ = (ChainState.empty.insertBlock W.genesis none).proven :=
        (ChainState.proven_insertFinalized ChainState.WellIndexed.empty hnew).symm

/-- **A run** from a node that has a tree. -/
theorem Refined.run (hleaf : LeafLaw E) (hmap : StateRoot.StorageTrieMap E)
    (h : Refined laws W code named finalized a₀ n) {events : List (NodeEvent E)}
    (hevents : Run.AllSteps Node.step (EventRefines laws W code named finalized) n events) :
    Refined laws W code named finalized a₀ (Run.run Node.step n events) :=
  Run.run_invariant (fun _ _ hn hevent => hn.step hleaf hmap hevent) h hevents

/-- between two events the node has a tree to go on from, and what may be named and trusted from there on is free -/
theorem Refined.restart (h : Refined laws W code named finalized a₀ n) (named' : B256 → Prop)
    (finalized' : Block → Prop) (hqueue : ∀ message ∈ n.engine.fromBeaconEngine, MessageNames named' message) :
    ∃ a, BlockTree.Moves (validation E W code named finalized) a₀ a ∧ n.engine.tree.Represents a ∧
      Refined laws W code named' finalized' a n := by
  obtain ⟨a, hmoves, hrepresents⟩ := h.tree.tree
  refine ⟨a, hmoves, hrepresents, ⟨h.tree.holds, h.tree.indexed, a, .refl, hrepresents⟩, fun message hm => ?_⟩
  exact ⟨(h.queue message hm).1, hqueue message hm⟩

/-- where everything may be named and trusted -/
theorem ReachedSame.refined (hleaf : LeafLaw E) (hmap : StateRoot.StorageTrieMap E)
    (hn : n.ReachedSame (settlement laws W code) W) :
    Refined laws W code (fun _ => True) (fun _ => True) W.root n := by
  obtain ⟨database, events, hcodes, hevents, rfl⟩ := hn
  refine (refined_launch hleaf hmap laws W _ _ database hcodes).run hleaf hmap (hevents.mono fun m event hevent => ?_)
  refine ⟨hevent, ?_⟩
  cases event with
  | arrive message => cases message <;> simp [EventNames, MessageNames]
  | poll io =>
    intro data _
    cases data <;> trivial

open FullNode (tallyEnv tallyBlock tallyWorld tallyNode tally)

/-- an update makes the new block the head and finalizes it -/
def tallyUpdated : List (NodeEvent tallyEnv) :=
  [.arrive (.forkchoiceUpdated ⟨(tallyBlock 1).hash, 0, (tallyBlock 1).hash⟩ none 2 1),
    .poll ⟨Network.silent, false, StateRoot.sortedSchedule, none, none⟩]

theorem tallyUpdated_delivered : ((tallyEnd 65).step (.arrive (.forkchoiceUpdated
    ⟨(tallyBlock 1).hash, 0, (tallyBlock 1).hash⟩ none 2 1))).engine.delivered
      ⟨Network.silent, false, StateRoot.sortedSchedule, none, none⟩ = none := by
  decide +kernel

theorem tallySized_refines (named : B256 → Prop) (finalized : Block → Prop) :
    Run.AllSteps step (EventRefines tally.evm tallyWorld (fun _ => none) named finalized)
      (launch tallyEnv ⟨∅, none, none⟩ tallyWorld.genesis) (tallySized 65) := by
  have hnames : Run.AllSteps step (EventNames named finalized) (launch tallyEnv ⟨∅, none, none⟩ tallyWorld.genesis)
      (tallySized 65) := by
    refine ⟨trivial, ?_, ?_, trivial⟩
    · intro data hdata
      cases tallyRun_delivered.1.symm.trans hdata
    · intro data hdata
      cases (tallySized_delivered 65 (by decide)).symm.trans hdata
      trivial
  exact ((tallySized_fits 65 (by decide)).and tallySized_same).and hnames

theorem tallyUpdated_refines {named : B256 → Prop} (finalized : Block → Prop) (h : named (tallyBlock 1).hash) :
    Run.AllSteps step (EventRefines tally.evm tallyWorld (fun _ => none) named finalized) (tallyEnd 65)
      tallyUpdated := by
  refine ⟨⟨⟨⟨trivial, trivial⟩, trivial⟩, fun _ => h⟩, ⟨⟨⟨?_, rfl, ?_⟩, ?_⟩, ?_⟩, trivial⟩ <;>
    · intro data hdata
      cases tallyUpdated_delivered.symm.trans hdata

/-- **The refinement.** In every run of a node from genesis on whose events meet `EventRefines`, the stored blocks and
the head before and after any part of the run are two trees of validated blocks, the first of them comes from genesis
alone, and the second from the first: by blocks that are valid on one of the tree, by heads among them, by cuts at
finalized hashes that the updates name and by finalized blocks that the downloads hand out. -/
theorem refines_tree (laws : EvmLaws E) (hleaf : LeafLaw E) (hmap : StateRoot.StorageTrieMap E)
    {database : RessDatabase} {events more : List (NodeEvent E)}
    (hcodes : ∀ hash bytecode, database.bytecodes.get hash = some bytecode → code hash = some bytecode)
    (hrun : Run.AllSteps step (EventRefines laws W code named finalized) (launch E database W.genesis)
      (events ++ more)) :
    ∃ a a', BlockTree.Moves (validation E W code named finalized) W.root a ∧
      (Run.run step (launch E database W.genesis) events).engine.tree.Represents a ∧
        BlockTree.Moves (validation E W code named finalized) a a' ∧
          (Run.run step (launch E database W.genesis) (events ++ more)).engine.tree.Represents a' := by
  obtain ⟨hevents, hmore⟩ := Run.allSteps_append.1 hrun
  have hbefore := (refined_launch hleaf hmap laws W named finalized database hcodes).run hleaf hmap hevents
  obtain ⟨a, hmoves, hrepresents, hrestart⟩ := hbefore.restart named finalized fun m hm => (hbefore.queue m hm).2
  obtain ⟨a', hmoves', hrepresents'⟩ := (hrestart.run hleaf hmap hmore).tree.tree
  rw [Run.run_append]
  exact ⟨a, a', hmoves, hrepresents, hmoves', hrepresents'⟩

theorem refines_tree_tally : ∃ a a',
    BlockTree.Moves (validation tallyEnv tallyWorld (fun _ => none) (· = (tallyBlock 1).hash) fun _ => False)
      tallyWorld.root a ∧ (tallyEnd 65).engine.tree.Represents a ∧
        BlockTree.Moves (validation tallyEnv tallyWorld (fun _ => none) (· = (tallyBlock 1).hash) fun _ => False) a a' ∧
          (Run.run step (launch tallyEnv ⟨∅, none, none⟩ tallyWorld.genesis)
            (tallySized 65 ++ tallyUpdated)).engine.tree.Represents a' :=
  refines_tree tally.evm tallyEnv_leafLaw tallyEnv_storageTrieMap (tallyCodes _)
    (Run.allSteps_append.2 ⟨tallySized_refines _ _, tallyUpdated_refines _ rfl⟩)

/-- **What is served stays.** A block that a node serves with its witness in some state of some run it serves in every
later state, as long as no forkchoice update that waits or arrives names a finalized block above it. -/
theorem served_kept (laws : EvmLaws E) (hleaf : LeafLaw E) (hmap : StateRoot.StorageTrieMap E)
    (hn : n.ReachedSame (settlement laws W code) W) {block : Block} {nodes : List Bytes}
    (hserves : n.engine.tree.Serves block nodes)
    (hqueue : ∀ message ∈ n.engine.fromBeaconEngine, MessageNames (fun hash => W.num hash ≤ block.number) message)
    {events : List (NodeEvent E)}
    (hevents : Run.AllSteps step
      (EventRefines laws W code (fun hash => W.num hash ≤ block.number) fun _ => True) n events) :
    (Run.run step n events).engine.tree.Serves block nodes := by
  have hrefined := hn.refined hleaf hmap
  obtain ⟨a, -, hrepresents, hrestart⟩ := hrefined.restart _ (fun _ => True) hqueue
  obtain ⟨a', hmoves, hrepresents'⟩ := (hrestart.run hleaf hmap hevents).tree.tree
  have hmem : (⟨block, some nodes⟩ : ProvenBlock) ∈ a.blocks := by
    rw [hrepresents.blocks]
    exact hserves.stored hrefined.tree.holds.coherent.wf.chain.state.known
  have hkept : (⟨block, some nodes⟩ : ProvenBlock) ∈ a'.blocks := by
    refine hmoves.kept (fun root hcut => ?_) hmem
    obtain ⟨hnamed, hknown⟩ := hcut
    calc root.block.number = W.num root.block.hash := hknown.hasNumber.num_eq.symm
      _ ≤ block.number := hnamed
  rw [hrepresents'.blocks] at hkept
  exact .of_stored hkept.1 hkept.2 hserves.nonempty

/-- an update that finalizes the block itself cuts genesis off, and the block is served -/
theorem served_kept_tally :
    (Run.run step (tallyEnd 65) tallyUpdated).engine.tree.Serves (tallyBlock 1) [tallyNode 1] := by
  refine served_kept tally.evm tallyEnv_leafLaw tallyEnv_storageTrieMap tallyEnd_reachedSame tallyEnd_serves ?_
    (tallyUpdated_refines _ (by decide +kernel))
  have hnone : (tallyEnd 65).engine.fromBeaconEngine = [] := List.isEmpty_iff.1 (by decide +kernel)
  intro message hmessage
  cases hnone ▸ hmessage

/-- **Where a stored block comes from.** In every state of every run a stored block descends, each block valid on the
one before with the witness that is stored for it, from genesis or from a finalized block that a download handed out. -/
theorem stored_rooted (laws : EvmLaws E) (hleaf : LeafLaw E) (hmap : StateRoot.StorageTrieMap E)
    {database : RessDatabase} {events : List (NodeEvent E)}
    (hcodes : ∀ hash bytecode, database.bytecodes.get hash = some bytecode → code hash = some bytecode)
    (hrun : Run.AllSteps step (EventRefines laws W code named finalized) (launch E database W.genesis) events)
    {hash : B256} {block : Block}
    (hget : (Run.run step (launch E database W.genesis) events).engine.tree.provider.chainState.blocksByHash.get hash =
      some block) :
    ∃ root, (root = W.genesis ∨ finalized root) ∧
      Relation.ReflTransGen (ProvenBlock.ValidOn E W code) ⟨root, none⟩
        ⟨block, (Run.run step (launch E database W.genesis) events).engine.tree.provider.chainState.witnesses.get
          hash⟩ := by
  have hrefined := (refined_launch hleaf hmap laws W named finalized database hcodes).run hleaf hmap hrun
  obtain ⟨a, hmoves, hrepresents⟩ := hrefined.tree.tree
  have hmem := ChainState.proven_of_stored hrefined.tree.indexed hget
  rw [← hrepresents.blocks] at hmem
  obtain ⟨⟨root, witness⟩, hroot, hpath⟩ := hmoves.rooted hmem
  rcases hroot with hgenesis | ⟨hnone, hfinalized⟩
  · cases Set.mem_singleton_iff.1 hgenesis
    exact ⟨W.genesis, Or.inl rfl, hpath⟩
  · obtain rfl : witness = none := hnone
    exact ⟨root, Or.inr hfinalized, hpath⟩

theorem stored_rooted_tally : ∃ root, (root = tallyWorld.genesis ∨ False) ∧
    Relation.ReflTransGen (ProvenBlock.ValidOn tallyEnv tallyWorld fun _ => none) ⟨root, none⟩
      ⟨tallyBlock 1, some [tallyNode 1]⟩ := by
  have hget : (tallyEnd 65).engine.tree.provider.chainState.blocksByHash.get (tallyBlock 1).hash = some (tallyBlock 1) :=
    by decide +kernel
  have hwitness : (tallyEnd 65).engine.tree.provider.chainState.witnesses.get (tallyBlock 1).hash =
      some [tallyNode 1] := by
    decide +kernel
  rw [tallyEnd] at hget hwitness
  have hrooted := stored_rooted tally.evm tallyEnv_leafLaw tallyEnv_storageTrieMap (tallyCodes _)
    (tallySized_refines (fun _ => True) fun _ => False) hget
  rw [hwitness] at hrooted
  exact hrooted

end Node

end Ress
