/-
Canonical bookkeeping over the life of a node.

The canonical head and the canonical map are written by chain updates, when a block is made canonical, and when a
finalized block arrives, which sets the head and removes no entry. The first two keep the books in order. The last one
does when the entries that it does not overwrite are ancestors of the block or low.

- `Kept`: a property of the chain that everything keeps which the engine does to it. `Books` carries it through the
  engine's steps.
- `Ordered`: every canonical entry is an ancestor of the head, or no stored block lies below it. An entry of another
  branch is harmless at first when it lies below the head, but a later update to a stored block below it leaves it above
  the head.
- `InOrder`: the greatest canonical entry is the head's, and the head is stored.
- `runs_inOrder`: so it is in every state of every run whose finalized downloads leave no other entries behind.
- `finalized_out_of_order`: two finalized downloads that complete in the other order.
-/
import Ress.Engine.Answers

namespace Ress

namespace Chain

/-- a property of the chain that is kept by everything the engine does to it; `Fits` says what it asks of a finalized
download -/
structure Kept (W : World) (Fits : Chain → Block → List SealedHeader → Prop) (I : Chain → Prop) : Prop where
  insertBlock : ∀ {c : Chain} {b : Block} {w : Option (List Bytes)}, I c → Child W c.state b →
    I { c with state := c.state.insertBlock b w }
  chainUpdate : ∀ {c : Chain} {target : B256} {update : NewCanonicalChain}, I c →
    c.state.onNewHead c.head target = some update → I (c.onCanonicalChainUpdate update)
  finalizedBlock : ∀ {c : Chain} {b : Block} {l : List SealedHeader}, I c → Delivered W b l → Fits c b l →
    I (c.onFinalizedBlock b l)
  removeBlocks : ∀ {c : Chain} {hash : B256}, I c → c.state.IsHashCanonical hash →
    I { c with state := c.state.removeBlocksOnFinalized hash }

variable {W : World} {c : Chain} {I : Chain → Prop} {Fits : Chain → Block → List SealedHeader → Prop}

theorem Kept.makeCanonical (hk : Kept W Fits I) (h : I c) (target : B256) : I (c.makeCanonical target) := by
  unfold Chain.makeCanonical
  split
  · rename_i update hu
    exact hk.chainUpdate h hu
  · exact h

theorem coherent_kept (W : World) : Kept W (FinalizedFits W) (Coherent W) where
  insertBlock h hb := h.insertBlock hb
  chainUpdate h hu := h.onCanonicalChainUpdate hu
  finalizedBlock h hd hfits := h.onFinalizedBlock hd hfits
  removeBlocks h hcanon := h.removeBlocksOnFinalized hcanon

/-! ## Low entries -/

/-- no stored block lies below this height -/
def Low (c : Chain) (n : ℕ) : Prop := ∀ k b, c.state.blocksByHash.get k = some b → n ≤ b.number

/-- every canonical entry that the download does not overwrite is an ancestor of the downloaded block, or lies at most
as high as this and every stored block -/
def FinalizedOrders (W : World) (c : Chain) (block : Block) (ancestors : List SealedHeader) : Prop :=
  ∀ n h, c.state.canonicalHashesByNumber.get n = some h → n ≠ block.number → (∀ x ∈ ancestors, x.number ≠ n) →
    W.Anc block.hash h ∨ n ≤ block.number ∧ c.Low n

theorem FinalizedFits.orders {block : Block} {ancestors : List SealedHeader} (h : FinalizedFits W c block ancestors) :
    FinalizedOrders W c block ancestors := fun n k hg hn hne => Or.inl (h n k hg hn hne)

/-- the head is stored and is the canonical entry at its height; the entries are ancestors of the head, or low -/
structure Ordered (W : World) (c : Chain) : Prop extends Wf W c where
  linked : c.state.Linked W
  entries : ∀ n h, c.state.canonicalHashesByNumber.get n = some h → W.Anc c.head.hash h ∨ c.Low n
  headStored : c.state.Stored c.head.hash
  headCanon : c.state.canonicalHashesByNumber.get c.head.number = some c.head.hash

theorem Coherent.ordered (h : Coherent W c) : Ordered W c :=
  ⟨h.toWf, h.linked, fun n k hg => Or.inl (h.canonAnc n k hg), h.headStored, h.headCanon⟩

/-- no entry lies above the head -/
theorem Ordered.entry_le (h : Ordered W c) {n : ℕ} {k : B256} (hg : c.state.canonicalHashesByNumber.get n = some k) :
    n ≤ c.head.number := by
  rcases h.entries n k hg with hanc | hlow
  · rw [← (h.state.canon n k hg).num_eq, ← h.head.num_eq]
    exact Ancestry.num_le World.link_num hanc
  · obtain ⟨b, hb⟩ := h.headStored
    obtain ⟨hhash, hknown⟩ := h.state.known _ _ hb
    have hnumber : W.HasNumber c.head.hash b.number := hhash ▸ hknown.hasNumber
    rw [h.head.unique hnumber]
    exact hlow _ b hb

theorem Ordered.insertBlock {b : Block} {w : Option (List Bytes)} (h : Ordered W c) (hb : Child W c.state b) :
    Ordered W { c with state := c.state.insertBlock b w } := by
  obtain ⟨p, hp, hnumber⟩ := hb.parent
  refine ⟨⟨h.state.insertBlock hb.known, h.head⟩, fun k x hx => h.linked.set (hb.link h.state) hx, ?_,
    ChainState.stored_insertBlock.2 (Or.inr h.headStored), h.headCanon⟩
  intro n k hg
  refine (h.entries n k hg).imp_right fun hlow j x hx => ?_
  -- the new block lies above its parent, which was stored
  simp only [ChainState.insertBlock, FMap.get_set] at hx
  split_ifs at hx with hj
  · cases hx
    have := hlow _ p hp
    omega
  · exact hlow j x hx

theorem Ordered.onCanonicalChainUpdate {target : B256} {update : NewCanonicalChain} (h : Ordered W c)
    (hu : c.state.onNewHead c.head target = some update) : Ordered W (c.onCanonicalChainUpdate update) := by
  have hblocks := onCanonicalChainUpdate_blocks c update
  refine ⟨h.toWf.onCanonicalChainUpdate hu, fun k b hb => h.linked k b (hblocks ▸ hb), fun n k hg => ?_,
    h.tip_stored hu, ChainState.onChainUpdate_tip update c.state⟩
  show W.Anc update.tip.hash k ∨ _
  rw [h.tip_hash hu]
  rcases h.updateEntry h.linked hu hg with hanc | ⟨hs, hnot⟩
  · exact Or.inl hanc
  · refine Or.inr fun j b hb => ?_
    exact (h.entries n k hs).resolve_left hnot j b (hblocks ▸ hb)

theorem Ordered.onFinalizedBlock {b : Block} {l : List SealedHeader} (h : Ordered W c) (hd : Delivered W b l)
    (hfits : FinalizedOrders W c b l) : Ordered W (c.onFinalizedBlock b l) := by
  refine ⟨h.toWf.onFinalizedBlock hd.known fun x hx => (hd.linked.mem x hx).1, ?_, ?_, ⟨b, ?_⟩, hd.headCanon c⟩
  · intro k x hx
    rw [onFinalizedBlock_blocks] at hx
    exact h.linked.set hd.link hx
  · intro n k hg
    rcases hd.entry hg with hanc | ⟨hs, hn, hne⟩
    · exact Or.inl hanc
    · rcases hfits n k hs hn hne with hanc | hbelow
      · exact Or.inl hanc
      · refine Or.inr fun j x hx => ?_
        rw [onFinalizedBlock_blocks, FMap.get_set] at hx
        split_ifs at hx with hj
        · cases hx
          exact hbelow.1
        · exact hbelow.2 j x hx
  · rw [onFinalizedBlock_blocks]
    exact FMap.get_set_self _ _ _

/-- removing the blocks before a canonical one keeps the head -/
theorem Ordered.removeBlocksOnFinalized (h : Ordered W c) {hash : B256} (hcanon : c.state.IsHashCanonical hash) :
    Ordered W { c with state := c.state.removeBlocksOnFinalized hash } := by
  have hle : ∀ f, c.state.blocksByHash.get hash = some f → f.number ≤ c.head.number := fun _ hf =>
    h.entry_le (h.canonical_number hcanon hf)
  refine ⟨⟨h.state.removeBlocksOnFinalized hash, h.head⟩,
    fun k b hb => h.linked k b (ChainState.removeBlocksOnFinalized_block hb), fun n k hg => ?_,
    h.finalized_headStored hle h.headStored, ?_⟩
  · exact (h.entries n k (ChainState.removeBlocksOnFinalized_entry hg)).imp_right fun hlow j b hb =>
      hlow j b (ChainState.removeBlocksOnFinalized_block hb)
  · have hkeep := ChainState.removeBlocksOnFinalized_keepsEntry fun f hf => Nat.le_add_right_of_le (hle f hf)
    exact hkeep.trans h.headCanon

theorem ordered_kept (W : World) : Kept W (FinalizedOrders W) (Ordered W) where
  insertBlock h hb := h.insertBlock hb
  chainUpdate h hu := h.onCanonicalChainUpdate hu
  finalizedBlock h hd hfits := h.onFinalizedBlock hd hfits
  removeBlocks h hcanon := h.removeBlocksOnFinalized hcanon

end Chain

namespace EngineTree

open Chain (Kept)

variable {E : Env}

/-- the head is the canonical entry at its height, no entry lies above it, and it is stored -/
structure InOrder (t : EngineTree E) : Prop where
  head : t.provider.chainState.canonicalHashesByNumber.get t.canonicalHead.number = some t.canonicalHead.hash
  greatest : ∀ n h, t.provider.chainState.canonicalHashesByNumber.get n = some h → n ≤ t.canonicalHead.number
  stored : t.Stored t.canonicalHead.hash

/-- the chain meets `I`, and nothing unknown is in the tree -/
structure Books (W : World) (I : Chain → Prop) (t : EngineTree E) : Prop where
  wf : Wf W t
  chain : I t.chain

/-- the books are in order, and nothing unknown is in the tree -/
abbrev Coherent (W : World) (t : EngineTree E) : Prop := Books W (Chain.Coherent W) t

variable {W : World} {t t' : EngineTree E} {I : Chain → Prop} {Fits : Chain → Block → List SealedHeader → Prop}

theorem Books.inOrder (h : Books W (Chain.Ordered W) t) : InOrder t :=
  ⟨h.chain.headCanon, fun _ _ hg => h.chain.entry_le hg, h.chain.headStored⟩

theorem books_launch (W : World) (database : RessDatabase) (hI : I (Chain.launch W.genesis)) :
    Books W I (launch E database W.genesis) := ⟨wf_launch W database, hI⟩

/-- a change of the buffer -/
theorem Books.withBuffer (h : Books W I t) {buffer : BlockBuffer} (hb : BlockBuffer.Known W buffer) :
    Books W I (t.withBuffer buffer) := ⟨⟨h.wf.chain, hb⟩, h.chain⟩

theorem Inserts.books {b : Block} {mw : Option ExecutionWitness} {r : Except InsertBlockErrorKind InsertPayloadOk}
    (hi : Inserts t b mw r t') (hk : Kept W Fits I) (hb : W.Knows b.toSealedHeader) (h : Books W I t) :
    Books W I t' := by
  refine ⟨hi.wf h.wf hb, ?_⟩
  cases hi with
  | alreadySeen => exact h.chain
  | refused => exact h.chain
  | disconnected head missing => exact h.chain
  | noWitness => exact h.chain
  | valid w _ _ hp =>
    have hchain := hk.insertBlock (w := some w.stateWitness) h.chain ⟨hb, hp⟩
    exact hchain

theorem Books.makeCanonical (h : Books W I t) (hk : Kept W Fits I) (target : B256) :
    Books W I (t.makeCanonical target) := by
  refine ⟨h.wf.makeCanonical target, ?_⟩
  rw [makeCanonical_chain]
  exact hk.makeCanonical h.chain target

theorem Books.keeps (hk : Kept W Fits I) : Keeps (E := E) (Books W I) fun b _ => W.Knows b.toSealedHeader where
  cache h := ⟨⟨h.wf.chain, h.wf.buffer⟩, h.chain⟩
  inserts hb hi h := hi.books hk hb h
  makeCanonical target h := h.makeCanonical hk target
  takes ord p h := by
    obtain ⟨hwf, hknown⟩ := h.wf.takeFor ord p
    exact ⟨⟨hwf, h.chain⟩, hknown⟩

theorem Books.tracks (h : Books W I t) (ht : Tracks t t') : Books W I t' := by
  refine ⟨ht.wf h.wf, ?_⟩
  rw [ht.chain]
  exact h.chain

/-- a forkchoice update applies a chain update, and finalizes only what is canonical then -/
theorem Books.updates (h : Books W I t) (hk : Kept W Fits I) {sched : StateRoot.Schedule} {state : ForkchoiceState}
    {r : UpdateAnswer} (hu : Updates sched t state r t') : Books W I t' := by
  have hwf := hu.wf h.wf
  have hforget : ∀ {t₁ : EngineTree E}, Forgets t t₁ → I t₁.chain := by
    intro t₁ hf
    rw [hf.chain]
    exact h.chain
  have hupdate : ∀ {t₁ : EngineTree E} {update : NewCanonicalChain}, Forgets t t₁ →
      t.onNewHead state.headBlockHash = some update → I (t₁.onCanonicalChainUpdate update).chain := by
    intro t₁ update hf hnew
    have hnew₁ : t₁.chain.state.onNewHead t₁.chain.head state.headBlockHash = some update := by
      rw [hf.chain]
      exact hnew
    exact hk.chainUpdate (hforget hf) hnew₁
  refine ⟨hwf, ?_⟩
  cases hu with
  | zeroHead => exact h.chain
  | invalid _ _ _ hf => exact hforget hf
  | currentInconsistent _ hf => exact hforget hf
  | current _ hf => exact hforget hf
  | updateInconsistent _ hf _ hnew => exact hupdate hf hnew
  | updated _ hf _ hnew hc =>
    have hchain := hupdate hf hnew
    rw [onFinalized_chain]
    split_ifs with hz
    · exact hk.removeBlocks hchain (hc.1 hz)
    · exact hchain
  | stored _ hf => exact hforget hf
  | syncing _ hf => exact hforget hf

/-- the block of a well-formed payload is known -/
def MessageKnown (W : World) : BeaconEngineMessage E → Prop
  | .newPayload payload _ => ∀ b, E.validator.ensureWellFormedPayload payload = .ok b → W.Knows b.toSealedHeader
  | _ => True

theorem Books.messages (h : Books W I t) (hk : Kept W Fits I) {sched : StateRoot.Schedule}
    {message : BeaconEngineMessage E} (hknown : MessageKnown W message)
    (hm : ConsensusEngine.Messages sched t message t') : Books W I t' := by
  have htake : ∀ hash, Books W I (t.withBuffer (t.blockBuffer.removeWitness hash).2) := by
    intro hash
    apply h.withBuffer
    exact h.wf.buffer.shrinks (BlockBuffer.removeWitness_removes _ _).1.toShrinks
  apply hm.keeps h
  · exact fun t₁ target h₁ => h₁.makeCanonical hk target
  · exact fun t₁ t₂ hf h₁ => (Books.keeps hk).forgets hf h₁
  · exact fun t₁ t₂ ht h₁ => h₁.tracks ht
  · exact htake
  · rintro payload tx b check answer t₁ rfl hb hr
    exact (Books.keeps hk).receives hr (hknown b hb) (htake _)
  · exact fun state answer t₁ hu => h.updates hk hu

end EngineTree

namespace ConsensusEngine

open Chain (Kept)
open EngineTree (Books)

variable {E : Env} {W : World} {e : ConsensusEngine E} {I : Chain → Prop}
  {Fits : Chain → Block → List SealedHeader → Prop}

/-- a downloaded block is known; a finalized one comes with its ancestors, and fits the chain -/
def OutcomeMeets (W : World) (Fits : Chain → Block → List SealedHeader → Prop) (t : EngineTree E) : DownloadData → Prop
  | .fullBlock block => W.Knows block.toSealedHeader
  | .finalizedBlock block ancestors => Chain.Delivered W block ancestors ∧ Fits t.chain block ancestors
  | _ => True

/-- a finalized download leaves no canonical entry of another branch behind -/
abbrev OutcomeFits (W : World) (t : EngineTree E) (data : DownloadData) : Prop :=
  OutcomeMeets W (Chain.FinalizedFits W) t data

theorem receiveOutcome_books (h : Books W I e.tree) (hk : Kept W Fits I) (sched : StateRoot.Schedule)
    {data : DownloadData} (hfits : OutcomeMeets W Fits e.tree data) :
    Books W I (e.receiveOutcome sched data).2.tree := by
  have hreceived := receiveOutcome_received e sched data
  generalize e.receiveOutcome sched data = received at hreceived ⊢
  cases hreceived with
  | finalized hrecover =>
    have hchain := hk.finalizedBlock h.chain hfits.1 hfits.2
    have hwf := h.wf.chain.onFinalizedBlock hfits.1.known fun x hx => (hfits.1.linked.mem x hx).1
    rw [← EngineTree.onFinalizedBlock_chain] at hchain hwf
    exact ⟨⟨hwf, h.wf.buffer⟩, hchain⟩
  | unrecovered hrecover => exact h
  | buffered hrecover => exact h.withBuffer (h.wf.buffer.insertBlock hfits)
  | dropped hrecover => exact h
  | lookupFailed hmissing => exact h
  | complete hmissing => exact h.withBuffer (h.wf.buffer.insertWitness _ _ _)
  | incomplete hmissing hne => exact h.withBuffer (h.wf.buffer.insertWitness _ _ _)
  | @bytecode codeHash bytecode =>
    refine ⟨h.wf.onBytecode codeHash bytecode, ?_⟩
    have hchain : (e.tree.onBytecode codeHash bytecode).2.chain = e.tree.chain := by
      unfold EngineTree.onBytecode RessProvider.insertBytecode
      cases e.tree.provider.database.insertBytecode codeHash bytecode <;> rfl
    change I (e.tree.onBytecode codeHash bytecode).2.chain
    rw [hchain]
    exact h.chain

theorem insertUnlocked_books (h : Books W I e.tree) (hk : Kept W Fits I) (sched : StateRoot.Schedule) (hash : B256) :
    Books W I (e.insertUnlocked sched hash).tree := by
  have htaken := h.withBuffer (h.wf.buffer.shrinks (BlockBuffer.removeBlock_removes e.tree.blockBuffer hash).toShrinks)
  rcases insertUnlocked_cases e sched hash with ⟨-, heq⟩ | ⟨b, w, answer, t, hb, -, -, hr, hf⟩
  · rw [heq]
    exact htaken
  · have hreceived := (Books.keeps hk).receives hr (h.wf.buffer.blocks _ _ hb).2 htaken
    exact hf.keeps (fun target => hreceived.makeCanonical hk target) hreceived

end ConsensusEngine

namespace Node

open Chain (Kept)
open EngineTree (Books InOrder MessageKnown)
open ConsensusEngine (OutcomeMeets OutcomeFits)

variable {E : Env} {W : World} {I : Chain → Prop} {Fits : Chain → Block → List SealedHeader → Prop}

/-- messages bring known blocks, and every finalized download fits the chain when it is handled -/
def EventMeets (W : World) (Fits : Chain → Block → List SealedHeader → Prop) (n : Node E) : NodeEvent E → Prop
  | .arrive message => MessageKnown W message
  | .poll io => ∀ data, n.engine.delivered io = some data → OutcomeMeets W Fits n.engine.tree data

/-- every finalized download leaves no canonical entry of another branch behind -/
abbrev EventFits (W : World) (n : Node E) (event : NodeEvent E) : Prop := EventMeets W (Chain.FinalizedFits W) n event

/-- the messages that wait bring known blocks, if the one that arrives does -/
theorem queue_known {n : Node E} {event : NodeEvent E}
    (h : ∀ message ∈ n.engine.fromBeaconEngine, MessageKnown W message)
    (harrive : ∀ message, event = .arrive message → MessageKnown W message) :
    ∀ message ∈ (n.step event).engine.fromBeaconEngine, MessageKnown W message := by
  intro message hmessage
  rcases step_queue n event message hmessage with hm | hm
  · exact h message hm
  · exact harrive message hm

/-- the chain meets `I`, and the messages that wait bring known blocks -/
structure Orderly (W : World) (I : Chain → Prop) (n : Node E) : Prop where
  tree : Books W I n.engine.tree
  queue : ∀ message ∈ n.engine.fromBeaconEngine, MessageKnown W message

theorem orderly_launch (W : World) (database : RessDatabase) (hI : I (Chain.launch W.genesis)) :
    Orderly W I (launch E database W.genesis) :=
  ⟨EngineTree.books_launch W database hI, by simp [launch, ConsensusEngine.launch]⟩

theorem Orderly.step {n : Node E} (h : Orderly W I n) (hk : Kept W Fits I) {event : NodeEvent E}
    (hfits : EventMeets W Fits n event) : Orderly W I (n.step event) := by
  refine ⟨step_tree n event h.tree (fun t _ _ ht => ⟨⟨ht.wf.chain, ht.wf.buffer⟩, ht.chain⟩) ?_ ?_, ?_⟩
  · exact fun sched t t' message hmem ht hm => ht.messages hk (h.queue message hmem) hm
  · rintro io data rfl hdata
    have hafter : Books W I (n.engine.afterPoll io).tree := ⟨⟨h.tree.wf.chain, h.tree.wf.buffer⟩, h.tree.chain⟩
    apply ConsensusEngine.onDownloadOutcome_tree (P := fun _ t => Books W I t) _ io.sched data
    · exact ConsensusEngine.receiveOutcome_books hafter hk io.sched (hfits data hdata)
    · exact fun e hash _ he => ConsensusEngine.insertUnlocked_books he hk io.sched hash
  · apply queue_known h.queue
    rintro message rfl
    exact hfits

/-- **Canonical bookkeeping.** In every run in which the entries that a finalized download leaves are ancestors of its
block, or low when it is handled, the books are in order in every state. -/
theorem runs_inOrder (W : World) (database : RessDatabase) (events : List (NodeEvent E))
    (hevents : Run.AllSteps step (EventMeets W (Chain.FinalizedOrders W)) (launch E database W.genesis) events) :
    Run.Always step (fun n => InOrder n.engine.tree) (launch E database W.genesis) events := by
  have hstart := orderly_launch (E := E) W database (Chain.coherent_launch W).ordered
  refine Run.run_always ?_ ?_ hstart hevents
  · intro n event h hfits
    exact Orderly.step h (Chain.ordered_kept W) hfits
  · intro n h
    exact h.tree.inOrder

/-! ## Finalized downloads that complete out of order -/

open Chain (mainBlock mainAncestors twoBranches)

/-- a forkchoice update for an unknown head -/
def forkchoice (head finalized : B256) (tx : ℕ) : NodeEvent smallEnv :=
  .arrive (.forkchoiceUpdated ⟨head, 0, finalized⟩ none tx 3)

/-- a pass in which the request for this finalized block is ready -/
def readyIo (n : ℕ) : ConsensusEngine.Io :=
  ⟨{ Network.silent with finalizedBlock := fun hash =>
    if hash = (mainBlock n).hash then some (mainBlock n, mainAncestors n 256) else none },
    false, StateRoot.sortedSchedule, none, none⟩

def finalizedReady (n : ℕ) : NodeEvent smallEnv := .poll (readyIo n)

/-- the finalized download of one forkchoice update -/
def oneFinalized : List (NodeEvent smallEnv) := [forkchoice 399 (mainBlock 258).hash 1, idle false, finalizedReady 258]

/-- two forkchoice updates start two finalized downloads; the later one completes first -/
def twoFinalized : List (NodeEvent smallEnv) :=
  [forkchoice 398 (mainBlock 258).hash 1, idle false, forkchoice 399 (mainBlock 300).hash 2, idle false,
    finalizedReady 300, finalizedReady 258]

def smallNode (events : List (NodeEvent smallEnv)) : Node smallEnv :=
  Run.run step (launch smallEnv ⟨∅, none, none⟩ twoBranches.genesis) events

theorem mainBlock_fits {n : ℕ} (hn : n < 400) (hlow : 256 ≤ n) {t : EngineTree smallEnv}
    (hkeys : t.provider.chainState.canonicalHashesByNumber.keys = {0})
    (hentry : t.provider.chainState.canonicalHashesByNumber.get 0 = some (mainBlock 0).hash) :
    OutcomeFits twoBranches t (.finalizedBlock (mainBlock n) (mainAncestors n 256)) := by
  refine ⟨Chain.mainBlock_delivered hn hlow le_rfl, ?_⟩
  intro k h hg _ _
  change t.provider.chainState.canonicalHashesByNumber.get k = some h at hg
  have hk : k = 0 := by
    have hmem := FMap.mem_keys.2 ⟨h, hg⟩
    rwa [hkeys, Finset.mem_singleton] at hmem
  rw [hk, hentry] at hg
  cases hg
  exact Chain.mainBlock_anc hn (Nat.zero_le n)

/-- the first pass of this run delivers nothing, the second one the finalized block -/
theorem oneFinalized_delivered :
    (smallNode [forkchoice 399 (mainBlock 258).hash 1]).engine.delivered
        ⟨Network.silent, false, StateRoot.sortedSchedule, none, none⟩ = none ∧
      (smallNode [forkchoice 399 (mainBlock 258).hash 1, idle false]).engine.delivered (readyIo 258) =
        some (.finalizedBlock (mainBlock 258) (mainAncestors 258 256)) := by
  decide +kernel

/-- one finalized download -/
theorem runs_inOrder_download :
    Run.Always step (fun n => InOrder n.engine.tree) (launch smallEnv ⟨∅, none, none⟩ twoBranches.genesis)
      oneFinalized := by
  apply runs_inOrder
  refine ⟨trivial, ?_, ?_, trivial⟩
  · intro data hdata
    cases oneFinalized_delivered.1.symm.trans hdata
  · intro data hdata
    cases oneFinalized_delivered.2.symm.trans hdata
    have hfits : OutcomeFits twoBranches (smallNode [forkchoice 399 (mainBlock 258).hash 1, idle false]).engine.tree
        (.finalizedBlock (mainBlock 258) (mainAncestors 258 256)) :=
      mainBlock_fits (by omega) (by omega) (by decide +kernel) (by decide +kernel)
    exact ⟨hfits.1, hfits.2.orders⟩

/-- **Finalized downloads out of order.** Both downloads deliver blocks of the main branch with their ancestors. After
the second one the canonical head is block 258, and the entry of block 300 lies above it. -/
theorem finalized_out_of_order :
    (∀ n ∈ [258, 300], Chain.Delivered twoBranches (mainBlock n) (mainAncestors n 256)) ∧
      (smallNode twoFinalized).terminated = none ∧
      ¬ InOrder (smallNode twoFinalized).engine.tree := by
  refine ⟨?_, by decide +kernel, ?_⟩
  · intro n hn
    simp only [List.mem_cons, List.not_mem_nil, or_false] at hn
    rcases hn with rfl | rfl
    · exact Chain.mainBlock_delivered (by omega) (by omega) le_rfl
    · exact Chain.mainBlock_delivered (by omega) (by omega) le_rfl
  · intro h
    have hentry : (smallNode twoFinalized).engine.tree.provider.chainState.canonicalHashesByNumber.get 300 =
        some (mainBlock 300).hash := by decide +kernel
    have hhead : (smallNode twoFinalized).engine.tree.canonicalHead.number = 258 := by decide +kernel
    have hle := h.greatest _ _ hentry
    omega

end Node

end Ress
