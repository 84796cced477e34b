/-
How a block that is handed to the engine tree is handled, in more detail than `Receives` tells.

- `Validates`, `Refuses`: the checks of `insert_block`, as predicates on the state before. They decide whether it
  answers VALID or an error (`insertBlock_valid`, `insertBlock_error`, `Refuses.insertBlock`).
- `Concludes`: what follows the insertion of a payload's block, by the result of that insertion.
- `Framed`: the rule for a property of the tree that may look at the buffer. Blocks that were taken out of the buffer
  have nothing left there, so inserting them need only keep the property where nothing is stored under their hash.
-/
import Ress.Tree.BufferFrame
import Ress.Tree.Replay

namespace Ress

namespace EngineTree

open BlockBuffer (Frees SameAt EmptyAt)

variable {E : Env} {t t' : EngineTree E} {b : Block}

/-! ## The checks of an insertion -/

/-- the block is new, its parent is stored, and it passes every check with this witness -/
def Validates (t : EngineTree E) (sched : StateRoot.Schedule) (block : Block) (witness : ExecutionWitness) : Prop :=
  ¬ t.Stored block.hash ∧ validateBlock E block = .ok () ∧
    ∃ parent, t.provider.sealedHeader block.parentHash = some parent ∧
      E.consensus.validateHeaderAgainstParent block.toSealedHeader { parent with hash := block.parentHash } = .ok () ∧
      t.executeBlock sched block parent witness = .ok ()

/-- the block is new, and the check that fails first does so with this error -/
def Refuses (t : EngineTree E) (sched : StateRoot.Schedule) (block : Block) (mw : Option ExecutionWitness)
    (kind : InsertBlockErrorKind) : Prop :=
  ¬ t.Stored block.hash ∧
    ((∃ error, validateBlock E block = .error error ∧ kind = .consensus error) ∨
      (validateBlock E block = .ok () ∧ ∃ parent, t.provider.sealedHeader block.parentHash = some parent ∧
        ((∃ error, E.consensus.validateHeaderAgainstParent block.toSealedHeader
            { parent with hash := block.parentHash } = .error error ∧ kind = .consensus error) ∨
          (E.consensus.validateHeaderAgainstParent block.toSealedHeader
            { parent with hash := block.parentHash } = .ok () ∧
            ∃ witness, mw = some witness ∧ t.executeBlock sched block parent witness = .error kind))))

theorem insertBlock_checks (t : EngineTree E) (sched : StateRoot.Schedule) (block : Block)
    (mw : Option ExecutionWitness) :
    match (t.insertBlock sched block mw).1 with
    | .ok (.inserted .valid) => ∃ witness, mw = some witness ∧ t.Validates sched block witness
    | .ok _ => True
    | .error kind => t.Refuses sched block mw kind := by
  simp only [insertBlock, tryInsertBlock]
  by_cases hs : (t.provider.sealedHeader block.hash).isSome = true
  · rw [if_pos hs]
    trivial
  · rw [if_neg hs]
    have hnew : ¬ t.Stored block.hash := fun h => hs (ChainState.sealedHeader_isSome.2 h)
    cases hv : validateBlock E block with
    | error error => exact ⟨hnew, Or.inl ⟨error, hv, rfl⟩⟩
    | ok _ =>
      cases hp : t.provider.sealedHeader block.parentHash with
      | none => trivial
      | some parent =>
        simp only
        cases ha : E.consensus.validateHeaderAgainstParent block.toSealedHeader
            { parent with hash := block.parentHash } with
        | error error => exact ⟨hnew, Or.inr ⟨hv, parent, hp, Or.inl ⟨error, ha, rfl⟩⟩⟩
        | ok _ =>
          cases mw with
          | none => trivial
          | some witness =>
            simp only
            cases he : t.executeBlock sched block parent witness with
            | error kind => exact ⟨hnew, Or.inr ⟨hv, parent, hp, Or.inr ⟨ha, witness, rfl, he⟩⟩⟩
            | ok _ => exact ⟨witness, rfl, hnew, hv, parent, hp, ha, he⟩

theorem insertBlock_valid {sched : StateRoot.Schedule} {mw : Option ExecutionWitness}
    (h : (t.insertBlock sched b mw).1 = .ok (.inserted .valid)) :
    ∃ witness, mw = some witness ∧ t.Validates sched b witness := by
  have hchecks := insertBlock_checks t sched b mw
  rw [h] at hchecks
  exact hchecks

theorem insertBlock_error {sched : StateRoot.Schedule} {mw : Option ExecutionWitness} {kind : InsertBlockErrorKind}
    (h : (t.insertBlock sched b mw).1 = .error kind) : t.Refuses sched b mw kind := by
  have hchecks := insertBlock_checks t sched b mw
  rw [h] at hchecks
  exact hchecks

/-- a block that is refused ends in that error -/
theorem Refuses.insertBlock {sched : StateRoot.Schedule} {mw : Option ExecutionWitness} {kind : InsertBlockErrorKind}
    (h : t.Refuses sched b mw kind) : (t.insertBlock sched b mw).1 = .error kind := by
  obtain ⟨hnew, hfails⟩ := h
  have hs : ¬ (t.provider.sealedHeader b.hash).isSome = true := fun h => hnew (ChainState.sealedHeader_isSome.1 h)
  simp only [EngineTree.insertBlock, tryInsertBlock, if_neg hs]
  rcases hfails with ⟨error, hv, rfl⟩ | ⟨hv, parent, hp, hfails⟩
  · simp only [hv]
  · simp only [hv, hp]
    rcases hfails with ⟨error, ha, rfl⟩ | ⟨ha, witness, rfl, he⟩
    · simp only [ha]
    · simp only [ha, he]

/-! ## A payload after its insertion -/

/-- what follows the insertion of a payload's block, which left the tree `t` -/
inductive Concludes (ord : Enumeration B256) (t : EngineTree E) (block : Block) :
    Except InsertBlockErrorKind InsertPayloadOk → Answer → EngineTree E → Prop
  | connected {result : InsertPayloadOk} {r : Except InsertBlockFatalError Unit} {answer : Answer}
      {t' : EngineTree E} (hr : result = .inserted .valid ∨ result = .alreadySeen)
      (hc : Connects (t.takenFor ord block.hash) (t.takeFor ord block.hash) r t') :
      Concludes ord t block (.ok result) answer t'
  | disconnected (head missing : BlockNumHash) :
      Concludes ord t block (.ok (.inserted (.disconnected head missing)))
        (.ok ⟨⟨.syncing, none⟩, some (TreeEvent.downloadBlock missing.hash)⟩) t
  | noWitness :
      Concludes ord t block (.ok (.inserted .noWitness))
        (.ok ⟨⟨.syncing, none⟩, some (TreeEvent.downloadWitness block.hash)⟩) t
  | failed {kind : InsertBlockErrorKind} {result : Except InsertBlockFatalError PayloadStatus} {answer : Answer}
      {t' : EngineTree E} (hf : Fails t block kind result t') : Concludes ord t block (.error kind) answer t'

/-- **A well-formed payload.** It is rejected by the invalid header cache, or its block is inserted and the rest
follows. -/
theorem onNewPayload_concludes (t : EngineTree E) (sched : StateRoot.Schedule) {payload : E.validator.ExecutionData}
    (mw : Option ExecutionWitness) (hb : E.validator.ensureWellFormedPayload payload = .ok b) :
    (∃ header status cache, t.lookupInvalid (t.payloadCheck b) = some header ∧
        (t.onNewPayload sched payload mw) =
          (.ok (TreeOutcome.new status), t.withCache (E.cache.insertWithInvalidAncestor cache b.hash header))) ∨
      (t.lookupInvalid (t.payloadCheck b) = none ∧
        ∃ cache t₂, Inserts (t.withCache cache) b mw (t.insertBlock sched b mw).1 t₂ ∧
          Concludes sched.order t₂ b (t.insertBlock sched b mw).1 (t.onNewPayload sched payload mw).1
            (t.onNewPayload sched payload mw).2) := by
  cases hn : t.lookupInvalid (t.payloadCheck b) with
  | some header =>
    refine Or.inl ⟨header, ?_⟩
    rcases checkInvalidAncestorWithHead_cases t (t.payloadCheck b) b.hash with
      ⟨hnone, -, -⟩ | ⟨header', status, t₁, hsome', hsome, -, hf, heq⟩
    · cases hn.symm.trans hnone
    · cases hn.symm.trans hsome'
      have hcheck : t.checkInvalidAncestorWithHead (t.payloadCheck b) b.hash = (some status,
          t.withCache (E.cache.insertWithInvalidAncestor t₁.invalidHeaders b.hash header)) := by
        refine Prod.ext hsome ?_
        rw [heq, hf.withCache]
        rfl
      simp only [payloadCheck] at hcheck
      refine ⟨status, t₁.invalidHeaders, rfl, ?_⟩
      simp only [onNewPayload, hb, hcheck]
  | none =>
    refine Or.inr ⟨rfl, ?_⟩
    obtain ⟨cache, hcheck⟩ := checkInvalid_passes b.hash hn
    have hi := insertBlock_inserts (t.withCache cache) sched b mw
    simp only [payloadCheck] at hcheck
    simp only [onNewPayload, hb, hcheck]
    have hresult : ((t.withCache cache).insertBlock sched b mw).1 = (t.insertBlock sched b mw).1 := by
      rw [insertBlock_withCache]
    rw [← hresult]
    refine ⟨cache, _, hi, ?_⟩
    cases hr : (t.withCache cache).insertBlock sched b mw with
    | mk result t₂ =>
      have hc := tryConnect_connects t₂ sched b.hash
      cases result with
      | error kind =>
        have hfail := onInsertBlockError_fails t₂ b kind
        simp only
        cases hk : t₂.onInsertBlockError b kind with
        | mk answer t₃ =>
          rw [hk] at hfail
          cases answer <;> exact Concludes.failed hfail
      | ok result =>
        cases hk : t₂.tryConnectBufferedBlocks sched b.hash with
        | mk answer t₃ =>
          rw [hk] at hc
          cases result with
          | alreadySeen =>
            simp only [hk]
            cases answer <;> exact Concludes.connected (Or.inr rfl) hc
          | inserted status =>
            cases status with
            | valid =>
              simp only [hk]
              cases answer <;> exact Concludes.connected (Or.inl rfl) hc
            | disconnected head missing => exact Concludes.disconnected head missing
            | noWitness => exact Concludes.noWitness

/-! ## Forkchoice updates -/

/-- the same blocks are buffered and stored, under the same numbers -/
structure SameBlocks (t t' : EngineTree E) : Prop where
  buffer : t'.blockBuffer = t.blockBuffer
  blocks : t'.provider.chainState.blocksByHash = t.provider.chainState.blocksByHash
  numbers : t'.provider.chainState.blockHashesByNumber = t.provider.chainState.blockHashesByNumber

/-- **What an update does to buffer and store**: nothing, or what finalization does. -/
theorem Updates.store_cases {sched : StateRoot.Schedule} {state : ForkchoiceState} {r : UpdateAnswer}
    (hu : Updates sched t state r t') :
    SameBlocks t t' ∨ ∃ (t₁ : EngineTree E) (hash : B256), SameBlocks t t₁ ∧ t' = t₁.onFinalized sched hash := by
  have hforget : ∀ {t₁ : EngineTree E}, Forgets t t₁ → SameBlocks t t₁ :=
    fun hf => ⟨hf.blockBuffer, by rw [hf.provider], by rw [hf.provider]⟩
  have hupdate : ∀ {t₁ : EngineTree E} (update : NewCanonicalChain), Forgets t t₁ →
      SameBlocks t (t₁.onCanonicalChainUpdate update) := by
    intro t₁ update hf
    have hsame := hforget hf
    obtain ⟨hblocks, hnumbers, -⟩ := ChainState.onChainUpdate_frame update.new update.old t₁.provider.chainState
    exact ⟨hsame.buffer, hblocks.trans hsame.blocks, hnumbers.trans hsame.numbers⟩
  cases hu with
  | zeroHead => exact Or.inl ⟨rfl, rfl, rfl⟩
  | invalid _ _ _ hf => exact Or.inl (hforget hf)
  | currentInconsistent _ hf => exact Or.inl (hforget hf)
  | current _ hf => exact Or.inl (hforget hf)
  | updateInconsistent _ hf => exact Or.inl (hupdate _ hf)
  | updated _ hf => exact Or.inr ⟨_, _, hupdate _ hf, rfl⟩
  | stored _ hf => exact Or.inl (hforget hf)
  | syncing _ hf => exact Or.inl (hforget hf)

/-- a forkchoice update only takes blocks out of the store -/
theorem Updates.blocks {sched : StateRoot.Schedule} {state : ForkchoiceState} {r : UpdateAnswer}
    (hu : Updates sched t state r t') {k : B256} {b : Block} (hb : t'.chain.state.blocksByHash.get k = some b) :
    t.chain.state.blocksByHash.get k = some b := by
  rcases hu.store_cases with hsame | ⟨t₁, hash, hsame, rfl⟩
  · exact (congrArg (·.get k) hsame.blocks).symm.trans hb
  · rw [onFinalized_chain] at hb
    have hkeep : t₁.chain.state.blocksByHash.get k = some b := by
      split_ifs at hb
      · exact ChainState.removeBlocksOnFinalized_block hb
      · exact hb
    exact (congrArg (·.get k) hsame.blocks).symm.trans hkeep

theorem onFinalized_frees (t : EngineTree E) (sched : StateRoot.Schedule) (hash : B256) :
    Frees t.blockBuffer (t.onFinalized sched hash).blockBuffer := by
  simp only [onFinalized]
  split
  · exact BlockBuffer.evictOldBlocks_frees _ _ _
  · exact Frees.rfl' _

/-- blocks leave the buffer with what is kept for them, and none enters the store -/
structure Shrinks (t t' : EngineTree E) : Prop where
  frees : Frees t.blockBuffer t'.blockBuffer
  stored : ∀ k, t'.Stored k → t.Stored k

theorem Shrinks.of_same (hbuffer : t'.blockBuffer = t.blockBuffer) (hstored : t'.storedHashes = t.storedHashes) :
    Shrinks t t' := ⟨hbuffer ▸ Frees.rfl' _, fun _ hk => hstored.subset hk⟩

theorem Updates.shrinks {sched : StateRoot.Schedule} {state : ForkchoiceState} {r : UpdateAnswer}
    (hu : Updates sched t state r t') : Shrinks t t' := by
  refine ⟨?_, hu.removes.2⟩
  rcases hu.store_cases with hsame | ⟨t₁, hash, hsame, rfl⟩
  · exact hsame.buffer ▸ Frees.rfl' _
  · exact hsame.buffer ▸ onFinalized_frees t₁ sched hash

/-- **Pruning.** A stored block of which there is a copy in the buffer stays in the store if the copy stays in the
buffer: finalization takes the copy of every block that it prunes. -/
theorem Updates.stored_of_buffered {W : World} {sched : StateRoot.Schedule} {state : ForkchoiceState} {r : UpdateAnswer}
    (hu : Updates sched t state r t') (hwf : Wf W t) {limit : ℕ} {history : List B256}
    (haged : BlockBuffer.Aged limit history Set.univ t.blockBuffer) {k : B256} {b : Block}
    (hb : t'.blockBuffer.blocks.get k = some b) (hk : t.Stored k) : t'.Stored k := by
  obtain ⟨x, hx⟩ := hk
  rcases hu.store_cases with hsame | ⟨t₁, hash, hsame, rfl⟩
  · exact ⟨x, by rw [hsame.blocks]; exact hx⟩
  · have hx₁ : t₁.provider.chainState.blocksByHash.get k = some x := by rw [hsame.blocks]; exact hx
    have hold := ((onFinalized_frees t₁ sched hash).same_of_block hb).block.symm.trans hb
    rw [hsame.buffer] at hold
    obtain ⟨hbk, hbknown⟩ := hwf.buffer.blocks k b hold
    have hindexed : ∀ n hs h, t₁.provider.chainState.blockHashesByNumber.get n = some hs → h ∈ hs → W.HasNumber h n := by
      rw [hsame.numbers]
      exact hwf.chain.state.indexed
    have hknown : ∀ {h x}, t₁.provider.chainState.blocksByHash.get h = some x → W.HasNumber h x.number := by
      intro h x hx
      rw [hsame.blocks] at hx
      obtain ⟨rfl, hknows⟩ := hwf.chain.state.known h x hx
      exact hknows.hasNumber
    have hchain := congrArg (fun c : Chain => c.state.blocksByHash) (onFinalized_chain t₁ sched hash)
    change (t₁.onFinalized sched hash).provider.chainState.blocksByHash = _ at hchain
    by_cases hz : hash = 0
    · rw [if_neg (not_not.2 hz)] at hchain
      exact ⟨x, by rw [hchain]; exact hx₁⟩
    · rw [if_pos hz] at hchain
      cases hf : t₁.provider.chainState.blocksByHash.get hash with
      | none =>
        rcases ChainState.removeBlocksOnFinalized_cases t₁.provider.chainState hash with ⟨-, heq⟩ | ⟨f, hsome, -⟩
        · refine ⟨x, ?_⟩
          rw [hchain]
          exact (congrArg (fun s => s.blocksByHash.get k) heq).trans hx₁
        · cases hf.symm.trans hsome
      | some f =>
        -- the finalized block is still there when its number is looked up
        have hstays := ChainState.removeBlocksOnFinalized_keeps hindexed hf hf (hknown hf) le_rfl
        have hbuffer : (t₁.onFinalized sched hash).blockBuffer =
            BlockBuffer.evictOldBlocks sched.order t₁.blockBuffer f.number := by
          simp only [onFinalized, RessProvider.onFinalized, RessProvider.blockNumber, ChainState.blockNumber]
          rw [if_pos hz, hstays]
          rfl
        rw [hbuffer, hsame.buffer] at hb
        have habove := haged.evictOldBlocks_above sched.order f.number hb
        have hnumber := hbknown.hasNumber
        rw [hbk] at hnumber
        exact ⟨x, by rw [hchain]; exact ChainState.removeBlocksOnFinalized_keeps hindexed hf hx₁ hnumber habove.le⟩


/-! ## Buffer and store after an insertion -/

/-- the block that goes to the buffer, with its witness if it came with one -/
theorem bufferWith_self (t : EngineTree E) (b : Block) (mw : Option ExecutionWitness) :
    (t.bufferWith b mw).blocks.get b.hash = some b ∧
      (t.bufferWith b mw).witnesses.get b.hash = mw.or (t.blockBuffer.witnesses.get b.hash) ∧
      (t.bufferWith b mw).missing b.hash = t.blockBuffer.missing b.hash := by
  cases mw with
  | none =>
    have hsame := (BlockBuffer.insertBlock_frees t.blockBuffer b).2
    exact ⟨(BlockBuffer.insertBlock_self _ b).1, hsame.witness, hsame.missing⟩
  | some w =>
    have hsame := (BlockBuffer.insertBlock_frees (t.blockBuffer.insertWitness b.hash w ∅) b).2
    exact ⟨(BlockBuffer.insertBlock_self _ b).1, hsame.witness.trans (FMap.get_set_self _ _ _), hsame.missing⟩

/-- any other block stays as it was, or goes with its witness -/
theorem bufferWith_other (t : EngineTree E) (b : Block) (mw : Option ExecutionWitness) {k : B256} (hk : k ≠ b.hash) :
    SameAt k t.blockBuffer (t.bufferWith b mw) ∨ EmptyAt k (t.bufferWith b mw) := by
  have hinsert : ∀ β : BlockBuffer, SameAt k t.blockBuffer β →
      SameAt k t.blockBuffer (β.insertBlock b) ∨ EmptyAt k (β.insertBlock b) := by
    intro β hβ
    have hadd : SameAt k β (β.addBlock b) := ⟨FMap.get_set_ne _ _ hk, rfl, rfl⟩
    rcases (BlockBuffer.insertBlock_frees β b).1 k with hsame | hempty
    · exact Or.inl ((hβ.trans hadd).trans hsame)
    · exact Or.inr hempty
  cases mw with
  | none => exact hinsert _ (SameAt.rfl' k _)
  | some w => exact hinsert (t.blockBuffer.insertWitness b.hash w ∅) ⟨rfl, FMap.get_set_ne _ _ hk, rfl⟩

/-- **What an insertion does to buffer and store**: nothing; or the block is stored; or it goes to the buffer. -/
theorem Inserts.effects {mw : Option ExecutionWitness} {r : Except InsertBlockErrorKind InsertPayloadOk}
    (hi : Inserts t b mw r t') :
    (t'.blockBuffer = t.blockBuffer ∧ t'.storedHashes = t.storedHashes) ∨
      (r = .ok (.inserted .valid) ∧ t'.blockBuffer = t.blockBuffer ∧
        t'.storedHashes = insert b.hash t.storedHashes) ∨
      (¬ t.Stored b.hash ∧ t'.blockBuffer = t.bufferWith b mw ∧ t'.storedHashes = t.storedHashes) := by
  cases hi with
  | alreadySeen => exact Or.inl ⟨rfl, rfl⟩
  | refused => exact Or.inl ⟨rfl, rfl⟩
  | disconnected head missing hnew => exact Or.inr (Or.inr ⟨hnew, rfl, rfl⟩)
  | noWitness hmw hnew =>
    subst hmw
    exact Or.inr (Or.inr ⟨hnew, rfl, rfl⟩)
  | valid w =>
    refine Or.inr (Or.inl ⟨rfl, rfl, ?_⟩)
    ext k
    exact ChainState.stored_insertBlock

/-- the block that is inserted is the only one that enters the buffer -/
theorem Inserts.empty {mw : Option ExecutionWitness} {r : Except InsertBlockErrorKind InsertPayloadOk}
    (hi : Inserts t b mw r t') {k : B256} (hk : k ≠ b.hash) (he : EmptyAt k t.blockBuffer) :
    EmptyAt k t'.blockBuffer := by
  rcases hi.effects with ⟨hbuffer, -⟩ | ⟨-, hbuffer, -⟩ | ⟨-, hbuffer, -⟩
  · exact hbuffer ▸ he
  · exact hbuffer ▸ he
  · rw [hbuffer]
    rcases bufferWith_other t b mw hk with hsame | hempty
    · exact hsame.empty he
    · exact hempty

theorem Inserts.keyed {mw : Option ExecutionWitness} {r : Except InsertBlockErrorKind InsertPayloadOk}
    (hi : Inserts t b mw r t') (h : t.blockBuffer.Keyed) : t'.blockBuffer.Keyed := by
  rcases hi.effects with ⟨hbuffer, -⟩ | ⟨-, hbuffer, -⟩ | ⟨-, hbuffer, -⟩
  · exact hbuffer ▸ h
  · exact hbuffer ▸ h
  · rw [hbuffer]
    unfold bufferWith
    cases mw with
    | none => exact h.insertBlock b
    | some w => exact BlockBuffer.Keyed.insertBlock (β := t.blockBuffer.insertWitness b.hash w ∅) h b

/-! ## The rule for the buffer -/

/-- the blocks of a list are taken out of the buffer: nothing is left under their hashes, and each is there once -/
structure Out (blocks : List (Block × ExecutionWitness)) (t : EngineTree E) : Prop where
  empty : ∀ x ∈ blocks, EmptyAt x.1.hash t.blockBuffer
  nodup : (blocks.map fun x => x.1.hash).Nodup

/-- a property of the tree that is kept when blocks leave the buffer with their witnesses, and when a block is inserted
that has nothing left in the buffer -/
structure Framed (P : EngineTree E → Prop) : Prop where
  keyed : ∀ {t : EngineTree E}, P t → t.blockBuffer.Keyed
  cache : ∀ {t : EngineTree E} {cache : E.cache.Cache}, P t → P { t with invalidHeaders := cache }
  makeCanonical : ∀ {t : EngineTree E} (target : B256), P t → P (t.makeCanonical target)
  frees : ∀ {t : EngineTree E} {buffer : BlockBuffer}, Frees t.blockBuffer buffer → P t →
    P { t with blockBuffer := buffer }
  inserts : ∀ {t t' : EngineTree E} {block : Block} {witness : ExecutionWitness}
    {r : Except InsertBlockErrorKind InsertPayloadOk}, Inserts t block (some witness) r t' →
    EmptyAt block.hash t.blockBuffer → P t → P t'

/-- where a property survives that buffer and store lose blocks, the insertions remain to be looked at -/
theorem Framed.of_shrinks {P : EngineTree E → Prop} (hkeyed : ∀ {t : EngineTree E}, P t → t.blockBuffer.Keyed)
    (hshrinks : ∀ {t t' : EngineTree E}, Shrinks t t' → P t → P t')
    (hinserts : ∀ {t t' : EngineTree E} {block : Block} {witness : ExecutionWitness}
      {r : Except InsertBlockErrorKind InsertPayloadOk}, Inserts t block (some witness) r t' →
      EmptyAt block.hash t.blockBuffer → P t → P t') : Framed P where
  keyed := hkeyed
  cache {t cache} h := by
    have hs : Shrinks t { t with invalidHeaders := cache } := Shrinks.of_same rfl rfl
    exact hshrinks hs h
  makeCanonical {t} target h :=
    hshrinks (Shrinks.of_same (makeCanonical_frame t target).1 (makeCanonical_storedHashes t target)) h
  frees {t buffer} hf h := by
    have hs : Shrinks t { t with blockBuffer := buffer } := ⟨hf, fun _ hk => hk⟩
    exact hshrinks hs h
  inserts := hinserts

theorem Out.congr {blocks : List (Block × ExecutionWitness)} (h : Out blocks t)
    (hbuffer : t'.blockBuffer = t.blockBuffer) : Out blocks t' := ⟨by rw [hbuffer]; exact h.empty, h.nodup⟩

theorem Out.inserts {x : Block × ExecutionWitness} {blocks : List (Block × ExecutionWitness)}
    {mw : Option ExecutionWitness} {r : Except InsertBlockErrorKind InsertPayloadOk} (h : Out (x :: blocks) t)
    (hi : Inserts t x.1 mw r t') : Out blocks t' := by
  have hnodup := List.nodup_cons.1 h.nodup
  refine ⟨fun y hy => ?_, hnodup.2⟩
  have hne : y.1.hash ≠ x.1.hash := by
    intro heq
    exact hnodup.1 (List.mem_map.2 ⟨y, hy, heq⟩)
  exact hi.empty hne (h.empty y (List.mem_cons_of_mem _ hy))

section Framed

variable {P : EngineTree E → Prop}

theorem Framed.forgets (hk : Framed P) (hf : Forgets t t') (h : P t) : P t' := by
  rw [hf.same]
  exact hk.cache h

theorem Framed.fails (hk : Framed P) {kind : InsertBlockErrorKind} {r : Except InsertBlockFatalError PayloadStatus}
    (hf : Fails t b kind r t') (h : P t) : P t' := by
  cases hf with
  | fatal => exact h
  | invalid text _ latestValidHash t₁ hforget => exact hk.cache (hk.forgets hforget h)

theorem Framed.connects (hk : Framed P) {blocks : List (Block × ExecutionWitness)}
    {r : Except InsertBlockFatalError Unit} (hc : Connects blocks t r t') (h : P t) (hout : Out blocks t) : P t' := by
  induction hc with
  | nil => exact h
  | @inserted child w blocks t t₁ t₂ result r hi _ ih =>
    exact ih (hk.inserts hi (hout.empty _ List.mem_cons_self) h) (Out.inserts (x := (child, w)) hout hi)
  | @target child w blocks t t₁ t₂ r hi _ ih =>
    have h₁ := hk.makeCanonical child.hash (hk.inserts hi (hout.empty _ List.mem_cons_self) h)
    exact ih h₁ ((Out.inserts (x := (child, w)) hout hi).congr (makeCanonical_frame t₁ child.hash).1)
  | @failed child w blocks t t₁ t₂ t₃ kind status r hi hf _ ih =>
    have h₂ := hk.fails hf (hk.inserts hi (hout.empty _ List.mem_cons_self) h)
    exact ih h₂ ((Out.inserts (x := (child, w)) hout hi).congr hf.frame.1)
  | fatal hi hf => exact hk.fails hf (hk.inserts hi (hout.empty _ List.mem_cons_self) h)

/-- the descendants that are taken for a parent leave nothing behind -/
theorem takeFor_out (hk : t.blockBuffer.Keyed) (ord : Enumeration B256) (p : B256) :
    Out (t.takenFor ord p) (t.takeFor ord p) := by
  have htaken := BlockBuffer.removeBlockWithChildren_taken ord t.blockBuffer p hk
  have hfrees := BlockBuffer.removeBlockWithChildren_frees ord t.blockBuffer p
  refine ⟨fun x hx => ?_, htaken.nodup⟩
  rcases hfrees x.1.hash with hsame | hempty
  · have hgone := htaken.gone x hx
    rw [hsame.block, (htaken.taken x hx).1] at hgone
    cases hgone
  · exact hempty

theorem Framed.takes (hk : Framed P) (h : P t) {ord : Enumeration B256} {p : B256}
    {r : Except InsertBlockFatalError Unit} (hc : Connects (t.takenFor ord p) (t.takeFor ord p) r t') : P t' :=
  hk.connects hc (hk.frees (BlockBuffer.removeBlockWithChildren_frees ord t.blockBuffer p) h)
    (takeFor_out (hk.keyed h) ord p)

/-- **A payload** keeps the property if inserting its block does. -/
theorem Framed.concludes (hk : Framed P) {ord : Enumeration B256} {result : Except InsertBlockErrorKind InsertPayloadOk}
    {answer : Answer} (hc : Concludes ord t b result answer t') (h : P t) : P t' := by
  cases hc with
  | connected _ hconnects => exact hk.takes h hconnects
  | disconnected => exact h
  | noWitness => exact h
  | failed hf => exact hk.fails hf h

theorem Framed.onNewPayload (hk : Framed P) (h : P t) (sched : StateRoot.Schedule)
    (payload : E.validator.ExecutionData) (mw : Option ExecutionWitness)
    (hinsert : ∀ b cache t₂, E.validator.ensureWellFormedPayload payload = .ok b →
      t.lookupInvalid (t.payloadCheck b) = none → Inserts (t.withCache cache) b mw (t.insertBlock sched b mw).1 t₂ →
      P t₂) : P (t.onNewPayload sched payload mw).2 := by
  rcases onNewPayload_cases t sched payload mw with ⟨error, status, -, -, -, hf⟩ | ⟨b, hb, -⟩
  · exact hk.forgets hf h
  · rcases onNewPayload_concludes t sched mw hb with ⟨header, status, cache, -, heq⟩ | ⟨hn, cache, t₂, hi, hc⟩
    · rw [heq]
      exact hk.cache h
    · exact hk.concludes hc (hinsert b cache t₂ hb hn hi)

/-- **A downloaded block** that has nothing left in the buffer keeps the property. -/
theorem Framed.receives (hk : Framed P) {ord : Enumeration B256} {check : B256} {w : ExecutionWitness} {answer : Answer}
    (hr : Receives ord t check b (some w) answer t') (he : EmptyAt b.hash t.blockBuffer) (h : P t) : P t' := by
  have hinsert : ∀ {t₁ t₂ : EngineTree E} {r : Except InsertBlockErrorKind InsertPayloadOk}, Forgets t t₁ →
      Inserts t₁ b (some w) r t₂ → P t₂ := by
    intro t₁ t₂ r hf hi
    exact hk.inserts hi (hf.blockBuffer ▸ he) (hk.forgets hf h)
  cases hr with
  | rejected _ _ hf => exact hk.cache (hk.forgets hf h)
  | connected _ hf hi _ hc => exact hk.takes (hinsert hf hi) hc
  | connectFailed _ hf hi _ hc => exact hk.takes (hinsert hf hi) hc
  | seen _ hf hi => exact hinsert hf hi
  | kept _ hf hi _ => exact hinsert hf hi
  | failed _ hf hi hfail => exact hk.fails hfail (hinsert hf hi)
  | fatal _ hf hi hfail => exact hk.fails hfail (hinsert hf hi)

end Framed

/-! ## What a payload leaves of its block -/

/-- a stored block stays stored while blocks are inserted -/
theorem Stored.keeps (k : B256) : Keeps (E := E) (fun t => t.Stored k) fun _ _ => True where
  cache h := h
  inserts _ hi h := hi.storedHashes_sub.1 h
  makeCanonical {t} target h := (makeCanonical_storedHashes t target).symm.subset h
  takes _ _ h := ⟨h, fun _ _ => trivial⟩

/-- **What is left of the block of a payload**: it is stored, or marked invalid, or it waits in the buffer with its
witness or for one. Only a malformed payload and a fatal error leave it as it was. -/
inductive Leaves (t : EngineTree E) (sched : StateRoot.Schedule) (payload : E.validator.ExecutionData)
    (mw : Option ExecutionWitness) (answer : Answer) (t' : EngineTree E) : Prop
  | malformed (h : ∀ b, E.validator.ensureWellFormedPayload payload ≠ .ok b) (hbuffer : t'.blockBuffer = t.blockBuffer)
  | stored (h : t'.Stored (E.validator.blockHash payload))
  | marked (h : t'.invalidHeader (E.validator.blockHash payload) ≠ none)
  | fatal {b : Block} {kind : InsertBlockErrorKind} {fatal : InsertBlockFatalError}
      (hb : E.validator.ensureWellFormedPayload payload = .ok b) (hn : t.lookupInvalid (t.payloadCheck b) = none)
      (hr : t.Refuses sched b mw kind) (hf : E.ensureValidationError kind = .error fatal)
      (hbuffer : t'.blockBuffer = t.blockBuffer)
  | kept {w : ExecutionWitness} (h : t'.blockBuffer.witnesses.get (E.validator.blockHash payload) = some w)
  | requests {event : TreeEvent} (hmw : mw = none) (ha : answer = .ok ⟨⟨.syncing, none⟩, some event⟩)
      (he : event = TreeEvent.downloadWitness (E.validator.blockHash payload) ∨
        ∃ hash, event = TreeEvent.downloadBlock hash)

theorem onNewPayload_leaves (hmarks : E.cache.Marks) (t : EngineTree E) (sched : StateRoot.Schedule)
    (payload : E.validator.ExecutionData) (mw : Option ExecutionWitness) :
    Leaves t sched payload mw (t.onNewPayload sched payload mw).1 (t.onNewPayload sched payload mw).2 := by
  cases hb : E.validator.ensureWellFormedPayload payload with
  | error error =>
    rcases onNewPayload_cases t sched payload mw with ⟨_, _, -, -, -, hf⟩ | ⟨b, hok, -⟩
    · refine Leaves.malformed (fun b hok => ?_) hf.blockBuffer
      cases hb.symm.trans hok
    · cases hb.symm.trans hok
  | ok b =>
    have hhash := E.validator.wellFormed_hash payload b hb
    rcases onNewPayload_concludes t sched mw hb with ⟨header, status, cache, -, heq⟩ | ⟨hn, cache, t₂, hi, hc⟩
    · rw [heq]
      refine Leaves.marked ?_
      rw [← hhash]
      exact hmarks.insertWith cache b.hash header
    · generalize hanswer : (t.onNewPayload sched payload mw).1 = answer at hc
      generalize (t.onNewPayload sched payload mw).2 = t₃ at hc
      generalize hresult : (t.insertBlock sched b mw).1 = result at hi hc
      cases hc with
      | connected hr hconnects =>
        have hstored : t₂.Stored b.hash := by
          rcases hr with rfl | rfl
          · cases hi with
            | valid w => exact ChainState.stored_insertBlock.2 (Or.inl rfl)
          · cases hi with
            | alreadySeen h => exact h
        refine Leaves.stored (hhash ▸ ?_)
        exact (Stored.keeps b.hash).connects hconnects hstored fun _ _ => trivial
      | disconnected head missing =>
        cases mw with
        | none => exact Leaves.requests rfl rfl (Or.inr ⟨_, rfl⟩)
        | some w =>
          cases hi with
          | disconnected _ _ _ _ =>
            exact Leaves.kept (hhash ▸ (bufferWith_self (t.withCache cache) b (some w)).2.1)
      | noWitness =>
        cases hi with
        | noWitness hmw => exact Leaves.requests hmw rfl (Or.inl (by rw [hhash]))
      | failed hf =>
        cases hi with
        | refused _ _ =>
          cases hf with
          | fatal fatal h => exact Leaves.fatal hb hn (insertBlock_error hresult) h rfl
          | invalid text h latestValidHash t₁ hforget =>
            refine Leaves.marked ?_
            rw [← hhash]
            exact hmarks.insert t₁.invalidHeaders b.blockWithParent

end EngineTree

end Ress
