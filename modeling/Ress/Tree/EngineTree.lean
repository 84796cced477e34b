/-
The engine tree (`crates/engine/src/tree/mod.rs`): its state and every operation on it.

Results are pairs of an answer and the next tree, because an answer that is an error still changes the tree (a lookup in
the invalid header cache forgets entries). Three things are left out: tracing, metrics and elapsed times.

- The iteration order of hash sets and the delivery order of the parallel stage of the state root are given by `sched`.
- `insertions` is a history of the calls of `insert_block`, for statements about runs; nothing reads it.
- The loops over stored blocks have one step for each stored block and one more, the loop over the invalid header cache
  one for each entry and one more.
-/
import Ress.Tree.BlockBuffer
import Ress.Tree.Chain
import Ress.Tree.StateRoot

namespace Ress

/-! ## Answers and events -/

inductive DownloadRequest where
  | block (blockHash : B256)
  | witness (blockHash : B256)
  | finalized (blockHash : B256)
deriving DecidableEq, Repr

inductive TreeAction where
  | makeCanonical (syncTargetHead : B256)
deriving DecidableEq, Repr

inductive TreeEvent where
  | treeAction (action : TreeAction)
  | download (request : DownloadRequest)
deriving DecidableEq, Repr

namespace TreeEvent

def downloadWitness (blockHash : B256) : TreeEvent := .download (.witness blockHash)

def downloadBlock (blockHash : B256) : TreeEvent := .download (.block blockHash)

def downloadFinalized (blockHash : B256) : TreeEvent := .download (.finalized blockHash)

def makeCanonical (syncTargetHead : B256) : TreeEvent := .treeAction (.makeCanonical syncTargetHead)

def asWitnessDownload : TreeEvent → Option B256
  | .download (.witness blockHash) => some blockHash
  | _ => none

end TreeEvent

structure TreeOutcome (T : Type) where
  outcome : T
  event : Option TreeEvent
deriving DecidableEq

def TreeOutcome.new {T : Type} (outcome : T) : TreeOutcome T := ⟨outcome, none⟩

inductive BlockStatus where
  | valid
  | disconnected (head missingAncestor : BlockNumHash)
  | noWitness
deriving DecidableEq, Repr

inductive InsertPayloadOk where
  | alreadySeen
  | inserted (status : BlockStatus)
deriving DecidableEq, Repr

/-- outgoing events; the status of a forkchoice update is that of its outcome -/
inductive BeaconConsensusEngineEvent where
  | forkchoiceUpdated (state : ForkchoiceState) (outcome : OnForkChoiceUpdated)
  | canonicalChainCommitted (tip : SealedHeader)
  | forkBlockAdded (block : Block)
  | canonicalBlockAdded (block : Block)
deriving DecidableEq, Repr

/-- one call of `insert_block`: its arguments, the codes in the database when it was called, and its result -/
structure Insertion where
  block : Block
  witness : Option ExecutionWitness
  codes : Finset B256
  result : Except InsertBlockErrorKind InsertPayloadOk

structure EngineTree (E : Env) where
  provider : RessProvider
  canonicalHead : BlockNumHash
  forkchoiceStateTracker : E.tracker.Tracker
  blockBuffer : BlockBuffer
  invalidHeaders : E.cache.Cache
  events : List BeaconConsensusEngineEvent
  insertions : List Insertion

namespace EngineTree

variable {E : Env}

def new (E : Env) (provider : RessProvider) (genesis : Block) : EngineTree E :=
  ⟨provider, genesis.numHash, E.tracker.default, BlockBuffer.new 256, E.cache.new, [], []⟩

/-- the chain state with the canonical head -/
def chain (t : EngineTree E) : Chain := ⟨t.provider.chainState, t.canonicalHead⟩

/-- the block is in the provider's store -/
def Stored (t : EngineTree E) (hash : B256) : Prop := t.provider.chainState.Stored hash

/-! ## Lookups -/

def isSyncTargetHead (t : EngineTree E) (blockHash : B256) : Bool :=
  match E.tracker.syncTargetState t.forkchoiceStateTracker with
  | some target => target.headBlockHash = blockHash
  | none => false

def isBlockPersistedOrBuffered (t : EngineTree E) (blockHash : B256) : Bool :=
  (t.provider.sealedHeader blockHash).isSome || (t.blockBuffer.blocks.get blockHash).isSome

def isForkFrom (t : EngineTree E) : ℕ → B256 → Bool
  | 0, _ => true
  | fuel + 1, currentHash =>
    match t.provider.sealedHeader currentHash with
    | none => true
    | some currentBlock =>
      if currentBlock.hash = t.canonicalHead.hash then false
      else if currentBlock.number ≤ t.canonicalHead.number then true
      else t.isForkFrom fuel currentBlock.parentHash

/-- the block is not an extension of the canonical chain -/
def isFork (t : EngineTree E) (targetHash : B256) : Bool :=
  t.isForkFrom (t.provider.chainState.blocksByHash.keys.card + 1) targetHash

def lowestBufferedAncestorOr (t : EngineTree E) (hash : B256) : B256 :=
  ((t.blockBuffer.lowestAncestor hash).map (·.parentHash)).getD hash

/-! ## Canonical chain -/

def emitEvent (t : EngineTree E) (event : BeaconConsensusEngineEvent) : EngineTree E :=
  { t with events := t.events ++ [event] }

def setCanonicalHead (t : EngineTree E) (head : BlockNumHash) : EngineTree E := { t with canonicalHead := head }

def onNewHead (t : EngineTree E) (newHead : B256) : Option NewCanonicalChain :=
  t.provider.chainState.onNewHead t.canonicalHead newHead

def onCanonicalChainUpdate (t : EngineTree E) (update : NewCanonicalChain) : EngineTree E :=
  let t := t.setCanonicalHead update.tip.numHash
  let t := { t with provider := t.provider.onChainUpdate update.new update.old }
  t.emitEvent (.canonicalChainCommitted update.tip)

def makeCanonical (t : EngineTree E) (target : B256) : EngineTree E :=
  match t.onNewHead target with
  | some update => t.onCanonicalChainUpdate update
  | none => t

/-! ## Invalid headers -/

/-- the loop of `latest_valid_hash_for_invalid_payload` over ancestors in the invalid cache -/
def latestValidLoop (t : EngineTree E) : ℕ → E.cache.Cache → Option BlockWithParent → Option B256 × E.cache.Cache
  | 0, cache, _ => (none, cache)
  | _ + 1, cache, none => (none, cache)
  | fuel + 1, cache, some current =>
    let (next, cache) := E.cache.get cache current.parent
    if next.isNone ∧ (t.provider.sealedHeader current.parent).isSome then (some current.parent, cache)
    else t.latestValidLoop fuel cache next

def latestValidHashForInvalidPayload (t : EngineTree E) (parentHash : B256) : Option B256 × EngineTree E :=
  if (t.provider.sealedHeader parentHash).isSome then (some parentHash, t)
  else
    let (current, cache) := E.cache.get t.invalidHeaders parentHash
    let (hash, cache) := t.latestValidLoop ((E.cache.entries t.invalidHeaders).keys.card + 1) cache current
    (hash, { t with invalidHeaders := cache })

/-- the parent hash that the response starts from: zero where the parent is a proof-of-work block -/
def invalidResponseParent (t : EngineTree E) (parentHash : B256) : B256 :=
  match t.provider.sealedHeader parentHash with
  | some parent => if parent.difficulty ≠ 0 then 0 else parentHash
  | none => parentHash

def prepareInvalidResponse (t : EngineTree E) (parentHash : B256) : PayloadStatus × EngineTree E :=
  let (validParentHash, t) := t.latestValidHashForInvalidPayload (t.invalidResponseParent parentHash)
  (⟨.invalid .linksToRejectedPayload, some (validParentHash.getD 0)⟩, t)

def checkInvalidAncestor (t : EngineTree E) (head : B256) : Option PayloadStatus × EngineTree E :=
  match E.cache.get t.invalidHeaders head with
  | (none, cache) => (none, { t with invalidHeaders := cache })
  | (some header, cache) =>
    let (status, t) := { t with invalidHeaders := cache }.prepareInvalidResponse header.parent
    (some status, t)

def checkInvalidAncestorWithHead (t : EngineTree E) (check head : B256) : Option PayloadStatus × EngineTree E :=
  match E.cache.get t.invalidHeaders check with
  | (none, cache) => (none, { t with invalidHeaders := cache })
  | (some header, cache) =>
    let (status, t) := { t with invalidHeaders := cache }.prepareInvalidResponse header.parent
    (some status, { t with invalidHeaders := E.cache.insertWithInvalidAncestor t.invalidHeaders head header })

def onInsertBlockError (t : EngineTree E) (block : Block) (kind : InsertBlockErrorKind) :
    Except InsertBlockFatalError PayloadStatus × EngineTree E :=
  match E.ensureValidationError kind with
  | .error fatal => (.error fatal, t)
  | .ok validationErr =>
    let (latestValidHash, t) := t.latestValidHashForInvalidPayload block.parentHash
    (.ok ⟨.invalid (.insertBlock validationErr), latestValidHash⟩,
      { t with invalidHeaders := E.cache.insert t.invalidHeaders block.blockWithParent })

/-! ## Inserting a block -/

def validateBlock (E : Env) (block : Block) : Except ConsensusError Unit := do
  E.consensus.validateHeaderWithTotalDifficulty block.toHeader
  E.consensus.validateHeader block.toSealedHeader
  E.consensus.validateBlockPreExecution block

/-- witness, execution, post-execution validation and state root of `insert_block` -/
def executeBlock (t : EngineTree E) (sched : StateRoot.Schedule) (block : Block) (parent : SealedHeader)
    (witness : ExecutionWitness) : Except InsertBlockErrorKind Unit := do
  let trie ← (revealWitness E parent.stateRoot witness).mapError fun error => .provider (.trieWitnessError error)
  let (result, state) ← (BlockExecutor.execute E ⟨t.provider, block.parentNumHash, trie⟩ block).mapError .execution
  (E.consensus.validateBlockPostExecution block result).mapError .consensus
  let stateRoot ← (StateRoot.calculateStateRoot E sched trie (E.evm.fromBundleState state)).mapError fun error =>
    .provider (.trieWitnessError error)
  if stateRoot ≠ block.stateRoot then
    .error (.consensus (.bodyStateRootDiff stateRoot block.stateRoot))

/-- the body of `insert_block` -/
def tryInsertBlock (t : EngineTree E) (sched : StateRoot.Schedule) (block : Block)
    (maybeWitness : Option ExecutionWitness) : Except InsertBlockErrorKind InsertPayloadOk × EngineTree E :=
  if (t.provider.sealedHeader block.hash).isSome then (.ok .alreadySeen, t)
  else
    match validateBlock E block with
    | .error error => (.error (.consensus error), t)
    | .ok () =>
      match t.provider.sealedHeader block.parentHash with
      | none =>
        -- the state to execute this block is not there: buffer it and find the missing parent block
        let missingAncestor :=
          ((t.blockBuffer.lowestAncestor block.parentHash).map (·.parentNumHash)).getD block.parentNumHash
        let buffer :=
          match maybeWitness with
          | some witness => t.blockBuffer.insertWitness block.hash witness ∅
          | none => t.blockBuffer
        (.ok (.inserted (.disconnected t.canonicalHead missingAncestor)),
          { t with blockBuffer := buffer.insertBlock block })
      | some parent =>
        match E.consensus.validateHeaderAgainstParent block.toSealedHeader { parent with hash := block.parentHash } with
        | .error error => (.error (.consensus error), t)
        | .ok () =>
          match maybeWitness with
          | none => (.ok (.inserted .noWitness), { t with blockBuffer := t.blockBuffer.insertBlock block })
          | some witness =>
            match t.executeBlock sched block parent witness with
            | .error kind => (.error kind, t)
            | .ok () =>
              let t := { t with provider := t.provider.insertBlock block (some witness.stateWitness) }
              let event := if t.isFork block.hash then .forkBlockAdded block else .canonicalBlockAdded block
              (.ok (.inserted .valid), t.emitEvent event)

/-- insert block into the tree, and note the call -/
def insertBlock (t : EngineTree E) (sched : StateRoot.Schedule) (block : Block)
    (maybeWitness : Option ExecutionWitness) : Except InsertBlockErrorKind InsertPayloadOk × EngineTree E :=
  let (result, t') := t.tryInsertBlock sched block maybeWitness
  (result, { t' with
    insertions := t'.insertions ++ [⟨block, maybeWitness, t.provider.database.bytecodes.keys, result⟩] })

/-! ## Connecting buffered blocks -/

/-- the loop of `try_connect_buffered_blocks`; a fatal error ends it -/
def connectBlocks (sched : StateRoot.Schedule) :
    List (Block × ExecutionWitness) → EngineTree E → Except InsertBlockFatalError Unit × EngineTree E
  | [], t => (.ok (), t)
  | (child, witness) :: blocks, t =>
    match t.insertBlock sched child (some witness) with
    | (.ok result, t) =>
      if t.isSyncTargetHead child.hash ∧ result = .inserted .valid then
        connectBlocks sched blocks (t.makeCanonical child.hash)
      else connectBlocks sched blocks t
    | (.error kind, t) =>
      match t.onInsertBlockError child kind with
      | (.error fatal, t) => (.error fatal, t)
      | (.ok _, t) => connectBlocks sched blocks t

def tryConnectBufferedBlocks (t : EngineTree E) (sched : StateRoot.Schedule) (parentHash : B256) :
    Except InsertBlockFatalError Unit × EngineTree E :=
  let (blocks, buffer) := BlockBuffer.removeBlockWithChildren sched.order t.blockBuffer parentHash
  connectBlocks sched blocks { t with blockBuffer := buffer }

/-! ## Payloads and downloaded blocks -/

def onNewPayload (t : EngineTree E) (sched : StateRoot.Schedule) (payload : E.validator.ExecutionData)
    (maybeWitness : Option ExecutionWitness) :
    Except InsertBlockFatalError (TreeOutcome PayloadStatus) × EngineTree E :=
  match E.validator.ensureWellFormedPayload payload with
  | .error error =>
    let (latestValidHash, t) :=
      if error.isBlockHashMismatch ∨ error.isInvalidVersionedHashes then (none, t)
      else t.latestValidHashForInvalidPayload (E.validator.parentHash payload)
    (.ok (TreeOutcome.new ⟨.invalid (.malformedPayload error), latestValidHash⟩), t)
  | .ok block =>
    let lowestBufferedAncestor := t.lowestBufferedAncestorOr block.hash
    let check := if lowestBufferedAncestor = block.hash then block.parentHash else lowestBufferedAncestor
    match t.checkInvalidAncestorWithHead check block.hash with
    | (some status, t) => (.ok (TreeOutcome.new status), t)
    | (none, t) =>
      match t.insertBlock sched block maybeWitness with
      | (.ok (.inserted .valid), t) | (.ok .alreadySeen, t) =>
        match t.tryConnectBufferedBlocks sched block.hash with
        | (.error fatal, t) => (.error fatal, t)
        | (.ok (), t) =>
          let event := if t.isSyncTargetHead block.hash then some (TreeEvent.makeCanonical block.hash) else none
          (.ok ⟨⟨.valid, some block.hash⟩, event⟩, t)
      | (.ok (.inserted (.disconnected _ missingAncestor)), t) =>
        (.ok ⟨⟨.syncing, none⟩, some (TreeEvent.downloadBlock missingAncestor.hash)⟩, t)
      | (.ok (.inserted .noWitness), t) =>
        (.ok ⟨⟨.syncing, none⟩, some (TreeEvent.downloadWitness block.hash)⟩, t)
      | (.error kind, t) =>
        match t.onInsertBlockError block kind with
        | (.error fatal, t) => (.error fatal, t)
        | (.ok status, t) => (.ok (TreeOutcome.new status), t)

def onDownloadedBlock (t : EngineTree E) (sched : StateRoot.Schedule) (block : Block) (witness : ExecutionWitness) :
    Except InsertBlockFatalError (TreeOutcome PayloadStatus) × EngineTree E :=
  match t.checkInvalidAncestorWithHead (t.lowestBufferedAncestorOr block.hash) block.hash with
  | (some status, t) => (.ok (TreeOutcome.new status), t)
  | (none, t) =>
    match t.insertBlock sched block (some witness) with
    | (.ok (.inserted .valid), t) =>
      let event := if t.isSyncTargetHead block.hash then some (TreeEvent.makeCanonical block.hash) else none
      match t.tryConnectBufferedBlocks sched block.hash with
      | (.error fatal, t) => (.error fatal, t)
      | (.ok (), t) => (.ok ⟨⟨.valid, some block.hash⟩, event⟩, t)
    | (.ok .alreadySeen, t) => (.ok (TreeOutcome.new ⟨.valid, some block.hash⟩), t)
    | (.ok (.inserted (.disconnected _ missingAncestor)), t) =>
      (.ok ⟨⟨.syncing, none⟩, some (TreeEvent.downloadBlock missingAncestor.hash)⟩, t)
    | (.ok (.inserted .noWitness), t) =>
      (.ok ⟨⟨.syncing, none⟩, some (TreeEvent.downloadWitness block.hash)⟩, t)
    | (.error kind, t) =>
      match t.onInsertBlockError block kind with
      | (.error fatal, t) => (.error fatal, t)
      | (.ok status, t) => (.ok (TreeOutcome.new status), t)

/-! ## Forkchoice updates -/

def preValidateForkchoiceUpdate (t : EngineTree E) (state : ForkchoiceState) :
    Option OnForkChoiceUpdated × EngineTree E :=
  if state.headBlockHash = 0 then (some .invalidState, t)
  else
    match t.checkInvalidAncestor (t.lowestBufferedAncestorOr state.headBlockHash) with
    | (some status, t) => (some (.withInvalid status), t)
    | (none, t) => (none, t)

/-- finalized and safe hash are canonical, where they are given -/
def ensureConsistentForkchoiceState (t : EngineTree E) (state : ForkchoiceState) : Except OnForkChoiceUpdated Unit :=
  if state.finalizedBlockHash ≠ 0 ∧ ¬ t.provider.isHashCanonical state.finalizedBlockHash then .error .invalidState
  else if state.safeBlockHash ≠ 0 ∧ ¬ t.provider.isHashCanonical state.safeBlockHash then .error .invalidState
  else .ok ()

def validatePayloadAttributes (E : Env) (attrs : E.validator.PayloadAttributes) (head : Header)
    (state : ForkchoiceState) (version : ℕ) : Option OnForkChoiceUpdated :=
  match E.validator.validatePayloadAttributesAgainstHeader attrs head with
  | .error _ => some .invalidPayloadAttributes
  | .ok () =>
    match E.validator.tryNewPayloadBuilderAttributes state.headBlockHash attrs version with
    | .error _ => some .invalidPayloadAttributes
    | .ok () => none

/-- clean up blocks from in-memory state and buffer -/
def onFinalized (t : EngineTree E) (sched : StateRoot.Schedule) (finalizedHash : B256) : EngineTree E :=
  let t := { t with provider := t.provider.onFinalized finalizedHash }
  match t.provider.blockNumber finalizedHash with
  | some finalizedNumber =>
    { t with blockBuffer := BlockBuffer.evictOldBlocks sched.order t.blockBuffer finalizedNumber }
  | none => t

/-- what to download when the head is unknown -/
def syncTargetEvent (t : EngineTree E) (state : ForkchoiceState) : Option TreeEvent :=
  if state.finalizedBlockHash ≠ 0 ∧ ¬ t.isBlockPersistedOrBuffered state.finalizedBlockHash then
    some (TreeEvent.downloadFinalized state.finalizedBlockHash)
  else
    let target :=
      if state.safeBlockHash ≠ 0 ∧ ¬ t.isBlockPersistedOrBuffered state.safeBlockHash then state.safeBlockHash
      else state.headBlockHash
    let target := t.lowestBufferedAncestorOr target
    if target ≠ state.finalizedBlockHash ∧ ¬ t.isBlockPersistedOrBuffered target then
      some (TreeEvent.downloadBlock target)
    else none

def validHead (state : ForkchoiceState) : TreeOutcome OnForkChoiceUpdated :=
  TreeOutcome.new (.valid ⟨.valid, some state.headBlockHash⟩)

def onForkchoiceUpdated (t : EngineTree E) (sched : StateRoot.Schedule) (state : ForkchoiceState)
    (payloadAttrs : Option E.validator.PayloadAttributes) (version : ℕ) :
    Except ProviderError (TreeOutcome OnForkChoiceUpdated) × EngineTree E :=
  match t.preValidateForkchoiceUpdate state with
  | (some onUpdated, t) => (.ok (TreeOutcome.new onUpdated), t)
  | (none, t) =>
    -- 1. the head is the canonical head
    if t.canonicalHead.hash = state.headBlockHash then
      match t.ensureConsistentForkchoiceState state with
      | .error outcome => (.ok (TreeOutcome.new outcome), t)
      | .ok () =>
        match payloadAttrs with
        | none => (.ok (validHead state), t)
        | some attr =>
          match t.provider.sealedHeader t.canonicalHead.hash with
          | none => (.error (.headerNotFound state.headBlockHash), t)
          | some tip =>
            match validatePayloadAttributes E attr tip.toHeader state version with
            | some status => (.ok (TreeOutcome.new status), t)
            | none => (.ok (validHead state), t)
    else
      match t.onNewHead state.headBlockHash with
      | some chainUpdate =>
        -- 2. a chain update leads to the head
        let t := t.onCanonicalChainUpdate chainUpdate
        match t.ensureConsistentForkchoiceState state with
        | .error outcome => (.ok (TreeOutcome.new outcome), t)
        | .ok () =>
          let t := t.onFinalized sched state.finalizedBlockHash
          match payloadAttrs.bind fun attr => validatePayloadAttributes E attr chainUpdate.tip.toHeader state version with
          | some status => (.ok (TreeOutcome.new status), t)
          | none => (.ok (validHead state), t)
      | none =>
        -- 3. the head is stored
        if (t.provider.sealedHeader state.headBlockHash).isSome then (.ok (validHead state), t)
        -- 4. the head is missing, so start syncing to it
        else (.ok ⟨.valid ⟨.syncing, none⟩, t.syncTargetEvent state⟩, t)

end EngineTree

end Ress
