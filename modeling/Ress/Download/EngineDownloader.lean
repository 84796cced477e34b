/-
The downloader of the engine (`crates/engine/src/download/mod.rs`): the requests in flight, by kind and hash, and the
outcomes not yet handed out.

A request in flight is a future; `Network` says which of them are ready when they are polled, and with what. A poll hands
out an outcome that is there, or else polls every request once, each kind from its last request to its first, and hands
out the first outcome it then has.
-/
import Ress.Primitives

namespace Ress

/-- `DownloadData`; the elapsed time of a `DownloadOutcome` is left out -/
inductive DownloadData where
  | fullBlock (block : Block)
  | bytecode (codeHash : B256) (bytecode : Bytecode)
  | witness (blockHash : B256) (witness : ExecutionWitness)
  | finalizedBlock (block : Block) (ancestors : List SealedHeader)
deriving DecidableEq, Repr

/-- what the requests in flight are ready with, by the hash they ask for -/
structure Network where
  fullBlock : B256 → Option Block
  bytecode : B256 → Option Bytecode
  witness : B256 → Option ExecutionWitness
  finalizedBlock : B256 → Option (Block × List SealedHeader)

/-- nothing is ready -/
def Network.silent : Network := ⟨fun _ => none, fun _ => none, fun _ => none, fun _ => none⟩

structure EngineDownloader where
  inflightFullBlockRequests : List B256
  inflightBytecodeRequests : List B256
  inflightWitnessRequests : List B256
  inflightFinalizedBlockRequests : List B256
  outcomes : List DownloadData
deriving Repr

namespace EngineDownloader

def new : EngineDownloader := ⟨[], [], [], [], []⟩

/-! ## Requests -/

/-- a request for a hash, unless one is in flight -/
def request (inflight : List B256) (hash : B256) : List B256 :=
  if inflight.any fun request => request = hash then inflight else inflight ++ [hash]

def downloadFullBlock (d : EngineDownloader) (blockHash : B256) : EngineDownloader :=
  { d with inflightFullBlockRequests := request d.inflightFullBlockRequests blockHash }

def downloadBytecode (d : EngineDownloader) (codeHash : B256) : EngineDownloader :=
  { d with inflightBytecodeRequests := request d.inflightBytecodeRequests codeHash }

def downloadWitness (d : EngineDownloader) (blockHash : B256) : EngineDownloader :=
  { d with inflightWitnessRequests := request d.inflightWitnessRequests blockHash }

def downloadFinalizedWithAncestors (d : EngineDownloader) (blockHash : B256) : EngineDownloader :=
  { d with inflightFinalizedBlockRequests := request d.inflightFinalizedBlockRequests blockHash }

/-! ## Polling -/

/-- take the element at an index out of a list, and put the last one in its place -/
def swapRemove (requests : List B256) (idx : ℕ) : Option (B256 × List B256) :=
  match requests[idx]?, requests.getLast? with
  | some request, some last => some (request, (requests.set idx last).dropLast)
  | _, _ => none

/-- poll the requests below `idx`, from the last to the first: a ready one becomes an outcome, any other goes to the
end of the list -/
def advance (ready : B256 → Option DownloadData) :
    ℕ → List B256 → List DownloadData → List B256 × List DownloadData
  | 0, requests, outcomes => (requests, outcomes)
  | idx + 1, requests, outcomes =>
    match swapRemove requests idx with
    | none => (requests, outcomes)
    | some (request, requests) =>
      match ready request with
      | some data => advance ready idx requests (outcomes ++ [data])
      | none => advance ready idx (requests ++ [request]) outcomes

/-- poll every request of one kind -/
def advanceAll (ready : B256 → Option DownloadData) (requests : List B256) (outcomes : List DownloadData) :
    List B256 × List DownloadData :=
  advance ready requests.length requests outcomes

/-- the first outcome -/
def popOutcome (d : EngineDownloader) : Option (DownloadData × EngineDownloader) :=
  match d.outcomes with
  | [] => none
  | outcome :: outcomes => some (outcome, { d with outcomes := outcomes })

/-- poll all requests in flight -/
def advanceRequests (net : Network) (d : EngineDownloader) : EngineDownloader :=
  let (finalized, outcomes) := advanceAll
    (fun hash => (net.finalizedBlock hash).map fun x => .finalizedBlock x.1 x.2)
    d.inflightFinalizedBlockRequests d.outcomes
  let (full, outcomes) := advanceAll
    (fun hash => (net.fullBlock hash).map .fullBlock) d.inflightFullBlockRequests outcomes
  let (witness, outcomes) := advanceAll
    (fun hash => (net.witness hash).map (.witness hash)) d.inflightWitnessRequests outcomes
  let (bytecode, outcomes) := advanceAll
    (fun hash => (net.bytecode hash).map (.bytecode hash)) d.inflightBytecodeRequests outcomes
  ⟨full, bytecode, witness, finalized, outcomes⟩

/-- the outcome handed out, if there is one, and the downloader after the poll -/
def poll (net : Network) (d : EngineDownloader) : Option DownloadData × EngineDownloader :=
  match d.popOutcome with
  | some (outcome, d) => (some outcome, d)
  | none =>
    let d := d.advanceRequests net
    match d.popOutcome with
    | some (outcome, d) => (some outcome, d)
    | none => (none, d)

end EngineDownloader

end Ress
