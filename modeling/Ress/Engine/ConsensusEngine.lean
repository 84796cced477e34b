/-
The consensus engine (`crates/engine/src/engine.rs`): the engine tree, the downloader, the queue of messages from the
beacon engine, and at most one parked payload.

- A message carries its response channel as a number; `responses` is what has been sent, in order. A receiver that is
  gone makes no difference to the engine.
- `Io` is what the environment decides in one pass of the poll loop: which requests are ready, whether the timeout of
  the parked payload has passed, the iteration order of hash sets, and whether the database fails.
- `pollOnce` is one pass of the loop. A node is polled until it terminates with a fatal error; messages arrive at any
  time (`Node.step`).
- `handled` is a history of the messages handled, each with the payload that was parked then; nothing reads it.
-/
import Ress.Download.EngineDownloader
import Ress.Tree.TreeRun

namespace Ress

/-- `BeaconEngineMessage`; `tx` is the response channel -/
inductive BeaconEngineMessage (E : Env) where
  | newPayload (payload : E.validator.ExecutionData) (tx : ℕ)
  | forkchoiceUpdated (state : ForkchoiceState) (payloadAttrs : Option E.validator.PayloadAttributes) (tx : ℕ)
      (version : ℕ)
  | transitionConfigurationExchanged

/-- the response channel of a message that is answered -/
def BeaconEngineMessage.tx? {E : Env} : BeaconEngineMessage E → Option ℕ
  | .newPayload _ tx => some tx
  | .forkchoiceUpdated _ _ tx _ => some tx
  | .transitionConfigurationExchanged => none

inductive Response where
  | payload (status : Except InsertBlockFatalError PayloadStatus)
  | forkchoice (outcome : Except ProviderError OnForkChoiceUpdated)

structure ParkedPayload where
  blockHash : B256
  tx : ℕ
deriving DecidableEq, Repr

structure ConsensusEngine (E : Env) where
  tree : EngineTree E
  downloader : EngineDownloader
  fromBeaconEngine : List (BeaconEngineMessage E)
  parkedPayload : Option ParkedPayload
  responses : List (ℕ × Response)
  handled : List (BeaconEngineMessage E × Option ParkedPayload)

namespace EngineTree

variable {E : Env}

def withBuffer (t : EngineTree E) (buffer : BlockBuffer) : EngineTree E := { t with blockBuffer := buffer }

/-- track the last received forkchoice state -/
def setLatest (t : EngineTree E) (state : ForkchoiceState) (outcome : OnForkChoiceUpdated) : EngineTree E :=
  { t with forkchoiceStateTracker := E.tracker.setLatest t.forkchoiceStateTracker state outcome }

/-- the database fails as the environment decides -/
def withFaults (t : EngineTree E) (readError writeError : Option DatabaseError) : EngineTree E :=
  { t with provider := { t.provider with
      database := { t.provider.database with readError := readError, writeError := writeError } } }

end EngineTree

namespace ConsensusEngine

variable {E : Env}

/-- the engine of a node that starts with this database -/
def launch (E : Env) (database : RessDatabase) (genesis : Block) : ConsensusEngine E :=
  ⟨EngineTree.launch E database genesis, EngineDownloader.new, [], none, [], []⟩

def send (e : ConsensusEngine E) (tx : ℕ) (response : Response) : ConsensusEngine E :=
  { e with responses := e.responses ++ [(tx, response)] }

/-! ## Tree events -/

def onTreeEvent (e : ConsensusEngine E) : TreeEvent → ConsensusEngine E
  | .download (.block blockHash) =>
    let downloader := e.downloader.downloadFullBlock blockHash
    { e with downloader :=
        if e.tree.blockBuffer.witnesses.get blockHash = none then downloader.downloadWitness blockHash else downloader }
  | .download (.witness blockHash) => { e with downloader := e.downloader.downloadWitness blockHash }
  | .download (.finalized blockHash) =>
    { e with downloader := e.downloader.downloadFinalizedWithAncestors blockHash }
  | .treeAction (.makeCanonical syncTargetHead) => { e with tree := e.tree.makeCanonical syncTargetHead }

def onMaybeTreeEvent (e : ConsensusEngine E) : Option TreeEvent → ConsensusEngine E
  | some event => e.onTreeEvent event
  | none => e

/-! ## Download outcomes -/

/-- answer the parked payload, if it is the block with this hash -/
def releaseParked (e : ConsensusEngine E) (blockHash : B256) (result : Except InsertBlockFatalError PayloadStatus) :
    ConsensusEngine E :=
  match e.parkedPayload with
  | some parked =>
    if parked.blockHash = blockHash then { e with parkedPayload := none }.send parked.tx (.payload result) else e
  | none => e

/-- take an unlocked block out of the buffer, if it is ready, and insert it; a fatal error is only logged -/
def insertUnlocked (e : ConsensusEngine E) (sched : StateRoot.Schedule) (unlockedHash : B256) : ConsensusEngine E :=
  match e.tree.blockBuffer.removeBlock unlockedHash with
  | (none, buffer) => { e with tree := e.tree.withBuffer buffer }
  | (some (block, witness), buffer) =>
    let result := (e.tree.withBuffer buffer).onDownloadedBlock sched block witness
    let e := { e with tree := result.2 }.onMaybeTreeEvent (result.1.toOption.bind (·.event))
    e.releaseParked block.hash (result.1.map (·.outcome))

def insertAllUnlocked (e : ConsensusEngine E) (sched : StateRoot.Schedule) (unlocked : Finset B256) :
    ConsensusEngine E :=
  (sched.order.list unlocked).foldl (fun e hash => e.insertUnlocked sched hash) e

/-- request every bytecode of a set -/
def downloadBytecodes (e : ConsensusEngine E) (sched : StateRoot.Schedule) (codeHashes : Finset B256) :
    ConsensusEngine E :=
  { e with downloader := (sched.order.list codeHashes).foldl (fun d hash => d.downloadBytecode hash) e.downloader }

/-- the part of `on_download_outcome` before the loop: the hashes that it unlocks -/
def receiveOutcome (e : ConsensusEngine E) (sched : StateRoot.Schedule) :
    DownloadData → Except InsertBlockFatalError (Finset B256) × ConsensusEngine E
  | .finalizedBlock block ancestors =>
    if E.tryRecover block then (.ok {block.hash}, { e with tree := e.tree.onFinalizedBlock block ancestors })
    else (.error (.provider .senderRecoveryError), e)
  | .fullBlock block =>
    if E.tryRecover block then
      (.ok {block.hash}, { e with tree := e.tree.withBuffer (e.tree.blockBuffer.insertBlock block) })
    else (.ok ∅, e)
  | .witness blockHash witness =>
    match e.tree.provider.missingCodeHashes (witness.bytecodeHashes E.codec) with
    | .error error => (.error (.provider (.database error)), e)
    | .ok missingCodeHashes =>
      let e := { e with
        tree := e.tree.withBuffer (e.tree.blockBuffer.insertWitness blockHash witness missingCodeHashes) }
      if missingCodeHashes = ∅ then (.ok {blockHash}, e) else (.ok ∅, e.downloadBytecodes sched missingCodeHashes)
  | .bytecode codeHash bytecode =>
    let (unlocked, tree) := e.tree.onBytecode codeHash bytecode
    (.ok unlocked, { e with tree := tree })

def onDownloadOutcome (e : ConsensusEngine E) (sched : StateRoot.Schedule) (outcome : DownloadData) :
    Except InsertBlockFatalError Unit × ConsensusEngine E :=
  match e.receiveOutcome sched outcome with
  | (.error fatal, e) => (.error fatal, e)
  | (.ok unlocked, e) => (.ok (), e.insertAllUnlocked sched unlocked)

/-! ## Messages -/

/-- event, parking and response after `on_new_payload` -/
def finishPayload (e : ConsensusEngine E) (blockHash : B256) (hasWitness : Bool) (tx : ℕ) :
    Except InsertBlockFatalError (TreeOutcome PayloadStatus) → ConsensusEngine E
  | .error fatal => e.send tx (.payload (.error fatal))
  | .ok ⟨outcome, none⟩ => e.send tx (.payload (.ok outcome))
  | .ok ⟨outcome, some event⟩ =>
    let e := e.onTreeEvent event
    match event.asWitnessDownload, outcome.status with
    -- the payload waits for its witness
    | some parkedHash, .syncing => { e with parkedPayload := some ⟨parkedHash, tx⟩ }
    | _, _ =>
      let e := if hasWitness then e else e.onTreeEvent (TreeEvent.downloadWitness blockHash)
      e.send tx (.payload (.ok outcome))

def onNewPayload (e : ConsensusEngine E) (sched : StateRoot.Schedule) (payload : E.validator.ExecutionData) (tx : ℕ) :
    ConsensusEngine E :=
  let blockHash := E.validator.blockHash payload
  let (maybeWitness, buffer) := e.tree.blockBuffer.removeWitness blockHash
  let result := (e.tree.withBuffer buffer).onNewPayload sched payload maybeWitness
  { e with tree := result.2 }.finishPayload blockHash maybeWitness.isSome tx result.1

/-- tracking, event and response after `on_forkchoice_updated` -/
def finishForkchoice (e : ConsensusEngine E) (state : ForkchoiceState) (tx : ℕ) :
    Except ProviderError (TreeOutcome OnForkChoiceUpdated) → ConsensusEngine E
  | .error error => e.send tx (.forkchoice (.error error))
  | .ok ⟨outcome, event⟩ =>
    let e := { e with tree := (e.tree.setLatest state outcome).emitEvent (.forkchoiceUpdated state outcome) }
    (e.onMaybeTreeEvent event).send tx (.forkchoice (.ok outcome))

def onForkchoiceUpdated (e : ConsensusEngine E) (sched : StateRoot.Schedule) (state : ForkchoiceState)
    (payloadAttrs : Option E.validator.PayloadAttributes) (tx version : ℕ) : ConsensusEngine E :=
  let result := e.tree.onForkchoiceUpdated sched state payloadAttrs version
  { e with tree := result.2 }.finishForkchoice state tx result.1

/-- the history with a message -/
def note (e : ConsensusEngine E) (message : BeaconEngineMessage E) : ConsensusEngine E :=
  { e with handled := e.handled ++ [(message, e.parkedPayload)] }

def onEngineMessage (e : ConsensusEngine E) (sched : StateRoot.Schedule) (message : BeaconEngineMessage E) :
    ConsensusEngine E :=
  match message with
  | .newPayload payload tx => (e.note message).onNewPayload sched payload tx
  | .forkchoiceUpdated state payloadAttrs tx version =>
    (e.note message).onForkchoiceUpdated sched state payloadAttrs tx version
  | .transitionConfigurationExchanged => e.note message

/-! ## The poll loop -/

structure Io where
  network : Network
  /-- the timeout of the parked payload has passed -/
  timeout : Bool
  sched : StateRoot.Schedule
  readError : Option DatabaseError
  writeError : Option DatabaseError

inductive Polled where
  | ready (fatal : InsertBlockFatalError)
  | again
  | pending

/-- the engine once the downloader has been polled -/
def afterPoll (e : ConsensusEngine E) (io : Io) : ConsensusEngine E :=
  { e with tree := e.tree.withFaults io.readError io.writeError, downloader := (e.downloader.poll io.network).2 }

/-- the outcome that the downloader hands to the engine -/
def delivered (e : ConsensusEngine E) (io : Io) : Option DownloadData := (e.downloader.poll io.network).1

/-- the timeout of the parked payload -/
def onTimeout (e : ConsensusEngine E) (parked : ParkedPayload) : ConsensusEngine E :=
  { e with parkedPayload := none }.send parked.tx (.payload (.ok ⟨.syncing, none⟩))

/-- the last part of a pass: the next message -/
def pollMessage (e : ConsensusEngine E) (sched : StateRoot.Schedule) : Polled × ConsensusEngine E :=
  match e.fromBeaconEngine with
  | [] => (.pending, e)
  | message :: messages => (.again, { e with fromBeaconEngine := messages }.onEngineMessage sched message)

/-- the part of a pass after the downloader: a parked payload holds up the messages until its timeout -/
def pollParked (e : ConsensusEngine E) (io : Io) : Polled × ConsensusEngine E :=
  match e.parkedPayload with
  | some parked => if io.timeout then (e.onTimeout parked).pollMessage io.sched else (.pending, e)
  | none => e.pollMessage io.sched

/-- one pass of the loop -/
def pollOnce (e : ConsensusEngine E) (io : Io) : Polled × ConsensusEngine E :=
  match e.delivered io with
  | some outcome =>
    match (e.afterPoll io).onDownloadOutcome io.sched outcome with
    | (.error fatal, e) => (.ready fatal, e)
    | (.ok (), e) => (.again, e)
  | none => (e.afterPoll io).pollParked io

end ConsensusEngine

/-! ## A node -/

/-- an engine, and the fatal error it has terminated with -/
structure Node (E : Env) where
  engine : ConsensusEngine E
  terminated : Option InsertBlockFatalError

/-- a message arrives, or the engine is polled -/
inductive NodeEvent (E : Env) where
  | arrive (message : BeaconEngineMessage E)
  | poll (io : ConsensusEngine.Io)

namespace Node

variable {E : Env}

def launch (E : Env) (database : RessDatabase) (genesis : Block) : Node E :=
  ⟨ConsensusEngine.launch E database genesis, none⟩

def step (n : Node E) : NodeEvent E → Node E
  | .arrive message =>
    { n with engine := { n.engine with fromBeaconEngine := n.engine.fromBeaconEngine ++ [message] } }
  | .poll io =>
    match n.terminated with
    | some _ => n
    | none =>
      match n.engine.pollOnce io with
      | (.ready fatal, engine) => ⟨engine, some fatal⟩
      | (_, engine) => ⟨engine, none⟩

/-- the messages that arrive, in order -/
def arrivals (events : List (NodeEvent E)) : List (BeaconEngineMessage E) :=
  events.filterMap fun
    | .arrive message => some message
    | .poll _ => none

end Node

end Ress
