/-
Runs of the engine tree: any sequence of the operations that the engine performs on it.

- `Op`: a payload, a downloaded block, a forkchoice update, the finalized branch of a download, and the small steps of
  the engine between them. Whatever witness a block is submitted with, and in whatever order, is a run.
- `Wf`: what every run keeps, where the headers it is fed are known (`OpKnown`).
- `forkchoice_invalidState`: what a forkchoice update that answers with an invalid state has changed.
-/
import Ress.Tree.TreeSteps

namespace Ress

namespace EngineTree

variable {E : Env}

/-! ## Operations -/

inductive Op (E : Env) where
  | newPayload (sched : StateRoot.Schedule) (payload : E.validator.ExecutionData) (mw : Option ExecutionWitness)
  | downloadedBlock (sched : StateRoot.Schedule) (block : Block) (witness : ExecutionWitness)
  | forkchoiceUpdated (sched : StateRoot.Schedule) (state : ForkchoiceState)
      (attrs : Option E.validator.PayloadAttributes) (version : ℕ)
  | makeCanonical (target : B256)
  | finalizedBlock (block : Block) (ancestors : List SealedHeader)
  | setLatest (state : ForkchoiceState) (outcome : OnForkChoiceUpdated)
  | bufferBlock (block : Block)
  | bufferWitness (blockHash : B256) (witness : ExecutionWitness) (missing : Finset B256)
  | takeBlock (blockHash : B256)
  | takeWitness (blockHash : B256)
  | bytecodeReceived (codeHash : B256) (bytecode : Bytecode)

/-- the finalized branch of `on_download_outcome` -/
def onFinalizedBlock (t : EngineTree E) (block : Block) (ancestors : List SealedHeader) : EngineTree E :=
  let t := t.setCanonicalHead block.numHash
  let provider := (t.provider.insertCanonicalHash block.number block.hash).insertBlock block none
  { t with provider := ancestors.foldl (fun p header => p.insertCanonicalHash header.number header.hash) provider }

/-- the bytecode branch of `on_download_outcome`; a failed write changes nothing -/
def onBytecode (t : EngineTree E) (codeHash : B256) (bytecode : Bytecode) : Finset B256 × EngineTree E :=
  match t.provider.insertBytecode codeHash bytecode with
  | .error _ => (∅, t)
  | .ok provider =>
    let (unlocked, buffer) := t.blockBuffer.onBytecodeReceived codeHash
    (unlocked, { t with provider := provider, blockBuffer := buffer })

def step (t : EngineTree E) : Op E → EngineTree E
  | .newPayload sched payload mw => (t.onNewPayload sched payload mw).2
  | .downloadedBlock sched block witness => (t.onDownloadedBlock sched block witness).2
  | .forkchoiceUpdated sched state attrs version => (t.onForkchoiceUpdated sched state attrs version).2
  | .makeCanonical target => t.makeCanonical target
  | .finalizedBlock block ancestors => t.onFinalizedBlock block ancestors
  | .setLatest state outcome =>
    { t with forkchoiceStateTracker := E.tracker.setLatest t.forkchoiceStateTracker state outcome }
  | .bufferBlock block => { t with blockBuffer := t.blockBuffer.insertBlock block }
  | .bufferWitness blockHash witness missing =>
    { t with blockBuffer := t.blockBuffer.insertWitness blockHash witness missing }
  | .takeBlock blockHash => { t with blockBuffer := (t.blockBuffer.removeBlock blockHash).2 }
  | .takeWitness blockHash => { t with blockBuffer := (t.blockBuffer.removeWitness blockHash).2 }
  | .bytecodeReceived codeHash bytecode => (t.onBytecode codeHash bytecode).2

/-- the tree of a node that starts with this database -/
def launch (E : Env) (database : RessDatabase) (genesis : Block) : EngineTree E :=
  EngineTree.new E ⟨database, (Chain.launch genesis).state⟩ genesis

/-- the headers that an operation brings are known -/
def OpKnown (W : World) : Op E → Prop
  | .newPayload _ payload _ => ∀ b, E.validator.ensureWellFormedPayload payload = .ok b → W.Knows b.toSealedHeader
  | .downloadedBlock _ b _ => W.Knows b.toSealedHeader
  | .finalizedBlock b ancestors => W.Knows b.toSealedHeader ∧ ∀ x ∈ ancestors, W.Knows x
  | .bufferBlock b => W.Knows b.toSealedHeader
  | _ => True

/-! ## What changes the store -/

variable {t t' : EngineTree E}

theorem makeCanonical_chain (t : EngineTree E) (target : B256) :
    (t.makeCanonical target).chain = t.chain.makeCanonical target := by
  unfold makeCanonical Chain.makeCanonical
  have : t.onNewHead target = t.chain.state.onNewHead t.chain.head target := rfl
  rw [this]
  cases t.chain.state.onNewHead t.chain.head target <;> rfl

theorem makeCanonical_frame (t : EngineTree E) (target : B256) :
    (t.makeCanonical target).blockBuffer = t.blockBuffer ∧
      (t.makeCanonical target).provider.database = t.provider.database ∧
      (t.makeCanonical target).invalidHeaders = t.invalidHeaders ∧
      (t.makeCanonical target).insertions = t.insertions ∧
      (t.makeCanonical target).provider.chainState.blocksByHash = t.provider.chainState.blocksByHash := by
  unfold makeCanonical
  cases t.onNewHead target with
  | none => exact ⟨rfl, rfl, rfl, rfl, rfl⟩
  | some update => exact ⟨rfl, rfl, rfl, rfl, (ChainState.onChainUpdate_frame _ _ _).1⟩

/-- the hashes of the stored blocks -/
def storedHashes (t : EngineTree E) : Set B256 := {k | t.Stored k}

theorem Forgets.storedHashes (hf : Forgets t t') : t'.storedHashes = t.storedHashes := by
  unfold EngineTree.storedHashes Stored
  rw [hf.provider]

theorem Fails.frame {b : Block} {kind : InsertBlockErrorKind} {r : Except InsertBlockFatalError PayloadStatus}
    (hf : Fails t b kind r t') : t'.blockBuffer = t.blockBuffer ∧ t'.storedHashes = t.storedHashes := by
  cases hf with
  | fatal => exact ⟨rfl, rfl⟩
  | invalid text _ latestValidHash t₁ hforget => exact ⟨hforget.blockBuffer, hforget.storedHashes⟩

theorem makeCanonical_storedHashes (t : EngineTree E) (target : B256) :
    (t.makeCanonical target).storedHashes = t.storedHashes := by
  unfold EngineTree.storedHashes Stored ChainState.Stored
  rw [(makeCanonical_frame t target).2.2.2.2]

theorem Inserts.storedHashes_sub {b : Block} {mw : Option ExecutionWitness}
    {r : Except InsertBlockErrorKind InsertPayloadOk} (hi : Inserts t b mw r t') :
    t.storedHashes ⊆ t'.storedHashes ∧ t'.storedHashes ⊆ insert b.hash t.storedHashes := by
  have hsame : t.storedHashes ⊆ insert b.hash t.storedHashes := Set.subset_insert _ _
  cases hi with
  | alreadySeen => exact ⟨subset_rfl, hsame⟩
  | refused => exact ⟨subset_rfl, hsame⟩
  | disconnected => exact ⟨subset_rfl, hsame⟩
  | noWitness => exact ⟨subset_rfl, hsame⟩
  | valid w =>
    refine ⟨fun k hk => ?_, fun k hk => ?_⟩
    · exact ChainState.stored_insertBlock.2 (Or.inr hk)
    · exact ChainState.stored_insertBlock.1 hk

/-- only a block that is inserted as valid is stored -/
theorem Inserts.storedHashes_eq {b : Block} {mw : Option ExecutionWitness}
    {r : Except InsertBlockErrorKind InsertPayloadOk} (hi : Inserts t b mw r t') (hr : r ≠ .ok (.inserted .valid)) :
    t'.storedHashes = t.storedHashes := by
  cases hi with
  | alreadySeen => rfl
  | refused => rfl
  | disconnected => rfl
  | noWitness => rfl
  | valid => exact absurd rfl hr

theorem Inserts.stored {b : Block} {mw : Option ExecutionWitness} {r : InsertPayloadOk}
    (hi : Inserts t b mw (.ok r) t') (hr : r = .inserted .valid ∨ r = .alreadySeen) : t'.Stored b.hash := by
  cases hi with
  | alreadySeen h => exact h
  | valid => exact ChainState.stored_insertBlock.2 (Or.inl rfl)
  | disconnected => simp at hr
  | noWitness => simp at hr

theorem Inserts.invalidHeader {b : Block} {mw : Option ExecutionWitness}
    {r : Except InsertBlockErrorKind InsertPayloadOk} (hi : Inserts t b mw r t') (k : B256) :
    t'.invalidHeader k = t.invalidHeader k := by
  cases hi <;> rfl

theorem makeCanonical_invalidHeader (t : EngineTree E) (target k : B256) :
    (t.makeCanonical target).invalidHeader k = t.invalidHeader k := by
  unfold EngineTree.invalidHeader; rw [(makeCanonical_frame t target).2.2.1]

/-! ## Well-formed in every run -/

/-- heights are true and buffered blocks known -/
structure Wf (W : World) (t : EngineTree E) : Prop where
  chain : t.chain.Wf W
  buffer : BlockBuffer.Known W t.blockBuffer

variable {W : World}

theorem wf_launch (W : World) (database : RessDatabase) : Wf W (launch E database W.genesis) :=
  ⟨Chain.wf_launch W, BlockBuffer.Known.new W 256⟩

theorem Forgets.wf (h : Forgets t t') (hw : Wf W t) : Wf W t' :=
  ⟨h.chain ▸ hw.chain, h.blockBuffer ▸ hw.buffer⟩

theorem Wf.note {b : Block} {mw : Option ExecutionWitness} {r : Except InsertBlockErrorKind InsertPayloadOk}
    (h : Wf W t) : Wf W (t.note b mw r) := ⟨h.chain, h.buffer⟩

theorem Wf.bufferWith (h : Wf W t) {b : Block} (hb : W.Knows b.toSealedHeader) (mw : Option ExecutionWitness) :
    BlockBuffer.Known W (t.bufferWith b mw) := by
  cases mw with
  | none => exact h.buffer.insertBlock hb
  | some w => exact (h.buffer.insertWitness b.hash w ∅).insertBlock hb

theorem Inserts.wf {b : Block} {mw : Option ExecutionWitness} {r : Except InsertBlockErrorKind InsertPayloadOk}
    (hi : Inserts t b mw r t') (h : Wf W t) (hb : W.Knows b.toSealedHeader) : Wf W t' := by
  cases hi with
  | alreadySeen => exact h.note
  | refused => exact h.note
  | disconnected head missing => exact ⟨h.chain, h.bufferWith hb mw⟩
  | noWitness => exact ⟨h.chain, h.buffer.insertBlock hb⟩
  | valid w =>
    have hstate := h.chain.state.insertBlock (w := some w.stateWitness) hb
    exact ⟨⟨hstate, h.chain.head⟩, h.buffer⟩

theorem Wf.makeCanonical (h : Wf W t) (target : B256) : Wf W (t.makeCanonical target) := by
  refine ⟨?_, ?_⟩
  · rw [makeCanonical_chain]; exact h.chain.makeCanonical target
  · rw [(makeCanonical_frame t target).1]; exact h.buffer

/-- the descendants taken are known blocks, and what is left is well formed -/
theorem Wf.takeFor (h : Wf W t) (ord : Enumeration B256) (p : B256) :
    Wf W (t.takeFor ord p) ∧ ∀ x ∈ t.takenFor ord p, W.Knows x.1.toSealedHeader := by
  obtain ⟨htaken, -⟩ := BlockBuffer.removeBlockWithChildren_spec ord t.blockBuffer p h.buffer.keyed h.buffer.linkSound
  refine ⟨⟨h.chain, h.buffer.shrinks htaken.toShrinks⟩, fun x hx => ?_⟩
  exact (h.buffer.blocks _ _ (htaken.taken x hx).1).2

theorem Wf.keeps (W : World) : Keeps (E := E) (Wf W) fun b _ => W.Knows b.toSealedHeader where
  cache h := ⟨h.chain, h.buffer⟩
  inserts hb hi h := hi.wf h hb
  makeCanonical target h := h.makeCanonical target
  takes ord p h := h.takeFor ord p

theorem Receives.wf {ord : Enumeration B256} {check : B256} {b : Block} {mw : Option ExecutionWitness} {r : Answer}
    (hr : Receives ord t check b mw r t') (h : Wf W t) (hb : W.Knows b.toSealedHeader) : Wf W t' :=
  (Wf.keeps W).receives hr hb h

/-- finalization as an operation of the chain -/
theorem onFinalized_chain (t : EngineTree E) (sched : StateRoot.Schedule) (hash : B256) :
    (t.onFinalized sched hash).chain =
      if hash ≠ 0 then { t.chain with state := t.chain.state.removeBlocksOnFinalized hash } else t.chain := by
  unfold onFinalized RessProvider.onFinalized
  split_ifs
  · simp only
    split <;> rfl
  · simp only
    split <;> rfl

theorem onFinalized_removes (t : EngineTree E) (sched : StateRoot.Schedule) (hash : B256) :
    BlockBuffer.Removes t.blockBuffer (t.onFinalized sched hash).blockBuffer := by
  unfold onFinalized
  simp only
  split
  · exact BlockBuffer.evictOldBlocks_removes _ _ _
  · exact BlockBuffer.Removes.rfl' _

/-- finalization only takes blocks out of the store -/
theorem onFinalized_stored (t : EngineTree E) (sched : StateRoot.Schedule) (hash : B256) {k : B256}
    (hk : (t.onFinalized sched hash).Stored k) : t.Stored k := by
  have hchain := onFinalized_chain t sched hash
  have hk' : (t.onFinalized sched hash).chain.state.Stored k := hk
  rw [hchain] at hk'
  split_ifs at hk'
  · obtain ⟨b, hb⟩ := hk'
    exact ⟨b, ChainState.removeBlocksOnFinalized_block hb⟩
  · exact hk'

theorem Wf.onFinalized (h : Wf W t) (sched : StateRoot.Schedule) (hash : B256) : Wf W (t.onFinalized sched hash) := by
  refine ⟨?_, h.buffer.shrinks (onFinalized_removes t sched hash).toShrinks⟩
  rw [onFinalized_chain]
  split_ifs
  · exact ⟨h.chain.state.removeBlocksOnFinalized hash, h.chain.head⟩
  · exact h.chain

theorem Updates.wf {sched : StateRoot.Schedule} {state : ForkchoiceState} {r : UpdateAnswer}
    (hu : Updates sched t state r t') (h : Wf W t) : Wf W t' := by
  have hupd : ∀ {t₁ : EngineTree E} {update : NewCanonicalChain}, Forgets t t₁ →
      t.onNewHead state.headBlockHash = some update → Wf W (t₁.onCanonicalChainUpdate update) := by
    intro t₁ update hf hnew
    have h1 := hf.wf h
    have hnew₁ : t₁.chain.state.onNewHead t₁.chain.head state.headBlockHash = some update := by
      rw [hf.chain]; exact hnew
    exact ⟨h1.chain.onCanonicalChainUpdate hnew₁, h1.buffer⟩
  cases hu with
  | zeroHead => exact h
  | invalid _ _ _ hf => exact hf.wf h
  | currentInconsistent _ hf => exact hf.wf h
  | current _ hf => exact hf.wf h
  | updateInconsistent _ hf _ hnew => exact hupd hf hnew
  | updated _ hf _ hnew => exact (hupd hf hnew).onFinalized sched _
  | stored _ hf => exact hf.wf h
  | syncing _ hf => exact hf.wf h

theorem onCanonicalChainUpdate_stored (t : EngineTree E) (update : NewCanonicalChain) {k : B256}
    (hk : (t.onCanonicalChainUpdate update).Stored k) : t.Stored k := by
  have hk' : (t.provider.chainState.onChainUpdate update.new update.old).Stored k := hk
  unfold ChainState.Stored at hk'
  rwa [(ChainState.onChainUpdate_frame _ _ _).1] at hk'

/-- a forkchoice update only removes from the buffer and from the store -/
theorem Updates.removes {sched : StateRoot.Schedule} {state : ForkchoiceState} {r : UpdateAnswer}
    (hu : Updates sched t state r t') :
    BlockBuffer.Removes t.blockBuffer t'.blockBuffer ∧ ∀ k, t'.Stored k → t.Stored k := by
  have hforget : ∀ {t₁ : EngineTree E}, Forgets t t₁ →
      BlockBuffer.Removes t.blockBuffer t₁.blockBuffer ∧ ∀ k, t₁.Stored k → t.Stored k := by
    intro t₁ hf
    refine ⟨hf.blockBuffer ▸ BlockBuffer.Removes.rfl' _, fun k hk => ?_⟩
    unfold Stored at hk ⊢
    rwa [← hf.provider]
  cases hu with
  | zeroHead => exact ⟨BlockBuffer.Removes.rfl' _, fun _ hk => hk⟩
  | invalid _ _ _ hf => exact hforget hf
  | currentInconsistent _ hf => exact hforget hf
  | current _ hf => exact hforget hf
  | @updateInconsistent t₁ update _ hf =>
    obtain ⟨hbuffer, hstored⟩ := hforget hf
    exact ⟨hbuffer, fun k hk => hstored k (onCanonicalChainUpdate_stored t₁ update hk)⟩
  | @updated t₁ update _ _ hf =>
    obtain ⟨hbuffer, hstored⟩ := hforget hf
    have hevict := onFinalized_removes (t₁.onCanonicalChainUpdate update) sched state.finalizedBlockHash
    refine ⟨hbuffer.trans hevict, fun k hk => ?_⟩
    have hk₁ := onFinalized_stored (t₁.onCanonicalChainUpdate update) sched state.finalizedBlockHash hk
    exact hstored k (onCanonicalChainUpdate_stored t₁ update hk₁)
  | stored _ hf => exact hforget hf
  | syncing _ hf => exact hforget hf

theorem onFinalizedBlock_chain (t : EngineTree E) (b : Block) (l : List SealedHeader) :
    (t.onFinalizedBlock b l).chain = t.chain.onFinalizedBlock b l := by
  have hfold : ∀ p : RessProvider,
      (l.foldl (fun p header => p.insertCanonicalHash header.number header.hash) p).chainState =
        l.foldl (fun s header => s.insertCanonicalHash header.number header.hash) p.chainState := by
    induction l with
    | nil => intro p; rfl
    | cons x l ih => intro p; exact ih (p.insertCanonicalHash x.number x.hash)
  unfold onFinalizedBlock chain Chain.onFinalizedBlock
  simp only [hfold]
  rfl

/-- the finalized block is stored, and the others stay -/
theorem onFinalizedBlock_stored (t : EngineTree E) (b : Block) (l : List SealedHeader) (k : B256) :
    (t.onFinalizedBlock b l).Stored k ↔ k = b.hash ∨ t.Stored k := by
  change (∃ x, (t.onFinalizedBlock b l).chain.state.blocksByHash.get k = some x) ↔
    k = b.hash ∨ ∃ x, t.chain.state.blocksByHash.get k = some x
  rw [onFinalizedBlock_chain, Chain.onFinalizedBlock_blocks, FMap.get_set]
  split_ifs with hk
  · exact ⟨fun _ => Or.inl hk, fun _ => ⟨b, rfl⟩⟩
  · exact ⟨fun hx => Or.inr hx, fun hx => hx.resolve_left hk⟩

theorem Wf.onBytecode (h : Wf W t) (c : B256) (code : Bytecode) : Wf W (t.onBytecode c code).2 := by
  unfold EngineTree.onBytecode RessProvider.insertBytecode
  cases t.provider.database.insertBytecode c code with
  | error e => exact h
  | ok db => exact ⟨h.chain, h.buffer.onBytecodeReceived c⟩

theorem Wf.step (h : Wf W t) {op : Op E} (hok : OpKnown W op) : Wf W (t.step op) := by
  cases op with
  | newPayload sched payload mw =>
    rcases onNewPayload_cases t sched payload mw with ⟨_, _, _, _, _, hf⟩ | ⟨b, hb, hr⟩
    · exact hf.wf h
    · exact hr.wf h (hok b hb)
  | downloadedBlock sched b w => exact (onDownloadedBlock_receives t sched b w).wf h hok
  | forkchoiceUpdated sched state attrs version => exact (onForkchoiceUpdated_updates t sched state attrs version).wf h
  | makeCanonical target => exact h.makeCanonical target
  | finalizedBlock b l =>
    refine ⟨?_, h.buffer⟩
    change (t.onFinalizedBlock b l).chain.Wf W
    rw [onFinalizedBlock_chain]
    exact h.chain.onFinalizedBlock hok.1 hok.2
  | setLatest state outcome => exact ⟨h.chain, h.buffer⟩
  | bufferBlock b => exact ⟨h.chain, h.buffer.insertBlock hok⟩
  | bufferWitness hash w m => exact ⟨h.chain, h.buffer.insertWitness hash w m⟩
  | takeBlock hash => exact ⟨h.chain, h.buffer.shrinks (BlockBuffer.removeBlock_removes _ _).toShrinks⟩
  | takeWitness hash => exact ⟨h.chain, h.buffer.shrinks (BlockBuffer.removeWitness_removes _ _).1.toShrinks⟩
  | bytecodeReceived c code => exact h.onBytecode c code

theorem Wf.run {ops : List (Op E)} (h : Wf W t) (hops : ∀ op ∈ ops, OpKnown W op) :
    Wf W (Run.run EngineTree.step t ops) := by
  induction ops generalizing t with
  | nil => exact h
  | cons op ops ih =>
    exact ih (h.step (hops op List.mem_cons_self)) fun o ho => hops o (List.mem_cons_of_mem _ ho)

/-! ## Small runs -/

open Chain (twoBranches mainBlock sideBlock mainBlock_knows sideBlock_knows)

/-- a node with an empty database, over two branches -/
def smallTree (ops : List (Op smallEnv)) : EngineTree smallEnv :=
  Run.run step (launch smallEnv ⟨∅, none, none⟩ twoBranches.genesis) ops

/-- a payload with a witness -/
def smallPayload (b : Block) (w : ExecutionWitness) : Op smallEnv :=
  .newPayload StateRoot.sortedSchedule (b, none) (some w)

def smallUpdate (state : ForkchoiceState) : Op smallEnv := .forkchoiceUpdated StateRoot.sortedSchedule state none 3

/-- three blocks of the main branch and two beside it -/
def bothBranches : List (Op smallEnv) :=
  [smallPayload (mainBlock 1) smallWitness, smallPayload (mainBlock 2) smallWitness,
    smallPayload (mainBlock 3) smallWitness, smallPayload (sideBlock 1) smallWitness,
    smallPayload (sideBlock 2) smallWitness]

theorem smallPayload_known {b : Block} (hb : twoBranches.Knows b.toSealedHeader) (w : ExecutionWitness) :
    OpKnown twoBranches (smallPayload b w) := by
  intro b' hb'
  cases hb'
  exact hb

theorem bothBranches_known : ∀ op ∈ bothBranches, OpKnown twoBranches op := by
  intro op hop
  simp only [bothBranches, List.mem_cons, List.not_mem_nil, or_false] at hop
  rcases hop with rfl | rfl | rfl | rfl | rfl
  · exact smallPayload_known (mainBlock_knows (by omega)) _
  · exact smallPayload_known (mainBlock_knows (by omega)) _
  · exact smallPayload_known (mainBlock_knows (by omega)) _
  · exact smallPayload_known sideBlock_knows.1 _
  · exact smallPayload_known sideBlock_knows.2 _

/-! ## What a rejected update has changed -/

def AnswersInvalidState (answer : UpdateAnswer) : Prop := ∃ event, answer = .ok ⟨.invalidState, event⟩

/-- **An inconsistent forkchoice state.** The update changes neither the block store nor the buffer. If the head is zero
or is the canonical head, it changes nothing of the chain; otherwise the chain update for the head has been applied,
because the safe and the finalized hash are looked up in the new canonical chain. -/
theorem forkchoice_invalidState (t : EngineTree E) (sched : StateRoot.Schedule) (state : ForkchoiceState)
    (attrs : Option E.validator.PayloadAttributes) (version : ℕ)
    (hinvalid : AnswersInvalidState (t.onForkchoiceUpdated sched state attrs version).1) :
    (t.onForkchoiceUpdated sched state attrs version).2.blockBuffer = t.blockBuffer ∧
      (t.onForkchoiceUpdated sched state attrs version).2.provider.chainState.blocksByHash =
        t.provider.chainState.blocksByHash ∧
      (t.onForkchoiceUpdated sched state attrs version).2.provider.chainState.blockHashesByNumber =
        t.provider.chainState.blockHashesByNumber ∧
      (t.onForkchoiceUpdated sched state attrs version).2.provider.chainState.witnesses =
        t.provider.chainState.witnesses ∧
      if state.headBlockHash = 0 ∨ t.canonicalHead.hash = state.headBlockHash then
        (t.onForkchoiceUpdated sched state attrs version).2.chain = t.chain
      else
        ∃ update, t.onNewHead state.headBlockHash = some update ∧
          (t.onForkchoiceUpdated sched state attrs version).2.chain = t.chain.onCanonicalChainUpdate update := by
  have hu := onForkchoiceUpdated_updates t sched state attrs version
  obtain ⟨event, hinvalid⟩ := hinvalid
  rw [hinvalid] at hu
  generalize hans : (Except.ok (TreeOutcome.mk OnForkChoiceUpdated.invalidState event) : UpdateAnswer) = answer at hu
  generalize (t.onForkchoiceUpdated sched state attrs version).2 = t' at hu ⊢
  have hsame : ∀ t₁ : EngineTree E, Forgets t t₁ → t₁.blockBuffer = t.blockBuffer ∧
      t₁.provider.chainState.blocksByHash = t.provider.chainState.blocksByHash ∧
      t₁.provider.chainState.blockHashesByNumber = t.provider.chainState.blockHashesByNumber ∧
      t₁.provider.chainState.witnesses = t.provider.chainState.witnesses := by
    intro t₁ hf
    rw [hf.provider]
    exact ⟨hf.blockBuffer, rfl, rfl, rfl⟩
  cases hu with
  | zeroHead hz => rw [if_pos (Or.inl hz)]; exact ⟨rfl, rfl, rfl, rfl, rfl⟩
  | invalid => simp [TreeOutcome.new] at hans
  | currentInconsistent _ hf hhead _ =>
    rw [if_pos (Or.inr hhead)]
    obtain ⟨h1, h2, h3, h4⟩ := hsame _ hf
    exact ⟨h1, h2, h3, h4, hf.chain⟩
  | current _ _ _ _ ha =>
    rcases ha with rfl | rfl | rfl
    · simp [validHead, TreeOutcome.new] at hans
    · simp [TreeOutcome.new] at hans
    · simp at hans
  | @updateInconsistent t₁ update hz hf hhead hnew _ =>
    rw [if_neg (not_or.2 ⟨hz, hhead⟩)]
    obtain ⟨h1, h2, h3, h4⟩ := hsame _ hf
    obtain ⟨f1, f2, f3⟩ := ChainState.onChainUpdate_frame update.new update.old t₁.provider.chainState
    refine ⟨h1, f1.trans h2, f2.trans h3, f3.trans h4, update, hnew, ?_⟩
    rw [← hf.chain]
    rfl
  | updated _ _ _ _ _ ha =>
    rcases ha with rfl | rfl
    · simp [validHead, TreeOutcome.new] at hans
    · simp [TreeOutcome.new] at hans
  | stored => simp [validHead, TreeOutcome.new] at hans
  | syncing => simp at hans

/-- an update with an unknown finalized hash, for a known head -/
theorem forkchoice_invalidState_mainBlock :
    ((smallTree bothBranches).onForkchoiceUpdated StateRoot.sortedSchedule ⟨4, 0, 77⟩ none 3).2.blockBuffer =
        (smallTree bothBranches).blockBuffer ∧
      ∃ update, (smallTree bothBranches).onNewHead 4 = some update ∧
        ((smallTree bothBranches).onForkchoiceUpdated StateRoot.sortedSchedule ⟨4, 0, 77⟩ none 3).2.chain =
          (smallTree bothBranches).chain.onCanonicalChainUpdate update := by
  obtain ⟨hbuffer, -, -, -, hchain⟩ := forkchoice_invalidState (smallTree bothBranches) StateRoot.sortedSchedule
    ⟨4, 0, 77⟩ none 3 ⟨none, by decide +kernel⟩
  rw [if_neg (by decide +kernel)] at hchain
  exact ⟨hbuffer, hchain⟩

/-- **An update that is answered with an invalid state moves the canonical head.** The head is known and the finalized
hash is not. -/
theorem forkchoice_invalidState_moves_head :
    (∀ op ∈ bothBranches, OpKnown twoBranches op) ∧
      AnswersInvalidState
        ((smallTree bothBranches).onForkchoiceUpdated StateRoot.sortedSchedule ⟨4, 0, 77⟩ none 3).1 ∧
      ((smallTree bothBranches).onForkchoiceUpdated StateRoot.sortedSchedule ⟨4, 0, 77⟩ none 3).2.canonicalHead ≠
        (smallTree bothBranches).canonicalHead :=
  ⟨bothBranches_known, ⟨none, by decide +kernel⟩, by decide +kernel⟩

end EngineTree

end Ress
