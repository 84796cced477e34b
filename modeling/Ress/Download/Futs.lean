/-
The download futures (`crates/engine/src/download/futs.rs`).

Each future keeps its requests in flight, takes a response, checks it, and makes the request again when the check fails.
What a poll finds ready is its argument: the responses in the order in which the loop takes them, whatever peers send.
Retry delays and elapsed times are left out.

- `FetchFullBlockFuture` has two requests at once. A turn of its loop polls both of them (`turn`).
- `FetchHeadersRangeFuture`, `FetchBytecodeFuture` and `FetchWitnessFuture` retry one request (`Polling.retry`).
- `FetchFullBlockWithAncestorsFuture` is the first and then the second of these.

`downloads_sound`: what a future resolves to, and which requests are outstanding when it does not.
-/
import Ress.Lib.Polling
import Ress.Reth

namespace Ress

open Polling (Poll Slot Verdict Promises polls retry fetchPart fetchPart_covers)

inductive PeerRequestError where
  | requestDropped
  | connectionClosed
deriving DecidableEq, Repr

/-- headers from `startHash` downwards -/
structure GetHeaders where
  startHash : B256
  limit : ℕ
deriving DecidableEq, Repr

/-- what the futures take from `reth` beyond the consensus checks of the environment -/
structure DownloadEnv (E : Env) where
  /-- the hash that `seal_slow` computes -/
  hashHeader : Header → B256
  validateBodyAgainstHeader : BlockBody → SealedHeader → Except ConsensusError Unit
  validateHeaderRange : List SealedHeader → Except ConsensusError Unit
  /-- `Bytecode::new_raw`, unless it panics -/
  newRaw : Bytes → Option Bytecode
  /-- `Bytecode::hash_slow` -/
  hashCode : Bytecode → B256
  /-- every header is valid on its own, and against the one before it -/
  range_ok : ∀ headers, validateHeaderRange headers = .ok () ↔
    (∀ header ∈ headers, E.consensus.validateHeader header = .ok ()) ∧
      headers.IsChain fun parent child => E.consensus.validateHeaderAgainstParent child parent = .ok ()

variable {E : Env}

def DownloadEnv.sealSlow (D : DownloadEnv E) (header : Header) : SealedHeader := ⟨header, D.hashHeader header⟩

abbrev PeerResponse (T : Type) := Except PeerRequestError T

/-! ## One block -/

structure FetchFullBlockFuture where
  blockHash : B256
  pendingHeaderRequest : Slot GetHeaders
  pendingBodyRequest : Slot (List B256)
  header : Option SealedHeader
  body : Option BlockBody

namespace FetchFullBlockFuture

def headerRequest (blockHash : B256) : GetHeaders := ⟨blockHash, 1⟩

def bodyRequest (blockHash : B256) : List B256 := [blockHash]

def new (blockHash : B256) : FetchFullBlockFuture :=
  ⟨blockHash, Slot.empty.send (headerRequest blockHash), Slot.empty.send (bodyRequest blockHash), none, none⟩

/-- the header that a response is taken for -/
def onHeaderResponse (D : DownloadEnv E) (blockHash : B256) (response : PeerResponse (Option Header)) :
    Option SealedHeader :=
  match response with
  | .ok (some header) => if (D.sealSlow header).hash = blockHash then some (D.sealSlow header) else none
  | .ok none => none
  | .error _ => none

/-- the body that a response is taken for -/
def onBodyResponse (response : PeerResponse (Option BlockBody)) : Option BlockBody :=
  match response with
  | .ok (some body) => some body
  | .ok none => none
  | .error _ => none

/-- the first statement of the loop; answers whether it continues with the next turn -/
def pollHeader (D : DownloadEnv E) (f : FetchFullBlockFuture) (found : Option (PeerResponse (List Header))) :
    Bool × FetchFullBlockFuture :=
  let (again, pendingHeaderRequest, header) := fetchPart (headerRequest f.blockHash)
    (fun response => onHeaderResponse D f.blockHash (response.map List.head?)) found f.pendingHeaderRequest f.header
  (again, { f with pendingHeaderRequest := pendingHeaderRequest, header := header })

/-- the second statement of the loop -/
def pollBody (f : FetchFullBlockFuture) (found : Option (PeerResponse (List BlockBody))) : Bool × FetchFullBlockFuture :=
  let (again, pendingBodyRequest, body) := fetchPart (bodyRequest f.blockHash)
    (fun response => onBodyResponse (response.map List.head?)) found f.pendingBodyRequest f.body
  (again, { f with pendingBodyRequest := pendingBodyRequest, body := body })

/-- what a turn of the loop finds ready; `none` is pending -/
structure Turn where
  header : Option (PeerResponse (List Header))
  body : Option (PeerResponse (List BlockBody))

/-- a turn of the loop; no answer means that the loop continues -/
def turn (D : DownloadEnv E) (found : Turn) (f : FetchFullBlockFuture) : Option (Poll Block) × FetchFullBlockFuture :=
  match f.pollHeader D found.header with
  | (true, f) => (none, f)
  | (false, f) =>
    match f.pollBody found.body with
    | (true, f) => (none, f)
    | (false, f) =>
      match f.header, f.body with
      | some header, some body =>
        match D.validateBodyAgainstHeader body header with
        | .error _ =>
          (none, { f with
            body := none
            pendingBodyRequest := f.pendingBodyRequest.send (bodyRequest f.blockHash) })
        | .ok () => (some (.ready ⟨header, body⟩), { f with header := none, body := none })
      | _, _ => (some .pending, f)

/-- the loop; after the turns given it finds nothing ready any more -/
def poll (D : DownloadEnv E) : List Turn → FetchFullBlockFuture → Poll Block × FetchFullBlockFuture
  | [], f =>
    match f.turn D ⟨none, none⟩ with
    | (some answer, f) => (answer, f)
    | (none, f) => (.pending, f)
  | found :: turns, f =>
    match f.turn D found with
    | (some answer, f) => (answer, f)
    | (none, f) => poll D turns f

/-- every part is there, or exactly one request for it is outstanding -/
structure Fetches (D : DownloadEnv E) (blockHash : B256) (f : FetchFullBlockFuture) : Prop where
  hash_eq : f.blockHash = blockHash
  sealed : ∀ header, f.header = some header → header.hash = blockHash ∧ header = D.sealSlow header.toHeader
  header : f.pendingHeaderRequest.Covers (headerRequest blockHash) f.header
  body : f.pendingBodyRequest.Covers (bodyRequest blockHash) f.body

/-- what the future may resolve to -/
def Sound (D : DownloadEnv E) (blockHash : B256) (block : Block) : Prop :=
  block.hash = blockHash ∧ block.toSealedHeader = D.sealSlow block.toHeader ∧
    D.validateBodyAgainstHeader block.body block.toSealedHeader = .ok ()

variable {D : DownloadEnv E} {blockHash : B256} {f : FetchFullBlockFuture}

theorem Fetches.new (D : DownloadEnv E) (blockHash : B256) : Fetches D blockHash (new blockHash) where
  hash_eq := rfl
  sealed _ h := by cases h
  header := ⟨fun _ => Slot.idle_empty.send _, fun h => absurd rfl h⟩
  body := ⟨fun _ => Slot.idle_empty.send _, fun h => absurd rfl h⟩

theorem onHeaderResponse_sealed {response : PeerResponse (Option Header)} {header : SealedHeader}
    (h : onHeaderResponse D blockHash response = some header) :
    header.hash = blockHash ∧ header = D.sealSlow header.toHeader := by
  simp only [onHeaderResponse] at h
  split at h
  · split_ifs at h with hh
    cases h
    exact ⟨hh, rfl⟩
  · cases h
  · cases h

theorem Fetches.pollHeader (h : Fetches D blockHash f) (found : Option (PeerResponse (List Header))) :
    Fetches D blockHash (f.pollHeader D found).2 := by
  simp only [FetchFullBlockFuture.pollHeader, h.hash_eq]
  obtain ⟨hcovers, hnew⟩ := fetchPart_covers (headerRequest blockHash)
    (fun response : PeerResponse (List Header) => onHeaderResponse D blockHash (response.map List.head?)) found h.header
  refine ⟨rfl, fun header hs => ?_, hcovers, h.body⟩
  rcases hnew header hs with hold | ⟨response, -, haccept⟩
  · exact h.sealed header hold
  · exact onHeaderResponse_sealed haccept

theorem Fetches.pollBody (h : Fetches D blockHash f) (found : Option (PeerResponse (List BlockBody))) :
    Fetches D blockHash (f.pollBody found).2 := by
  simp only [FetchFullBlockFuture.pollBody, h.hash_eq]
  obtain ⟨hcovers, -⟩ := fetchPart_covers (bodyRequest blockHash)
    (fun response : PeerResponse (List BlockBody) => onBodyResponse (response.map List.head?)) found h.body
  exact ⟨rfl, h.sealed, h.header, hcovers⟩

/-- **One turn.** The loop continues or waits, with a request outstanding for each missing part, or the block is
sound. -/
theorem Fetches.turn (h : Fetches D blockHash f) (found : Turn) :
    (∃ f', f.turn D found = (none, f') ∧ Fetches D blockHash f') ∨
      ∃ answer f', f.turn D found = (some answer, f') ∧
        Promises (Fetches D blockHash) (Sound D blockHash) False (answer, f') := by
  have hheader := h.pollHeader found.header
  simp only [FetchFullBlockFuture.turn]
  cases hph : f.pollHeader D found.header with
  | mk again f₁ =>
    rw [hph] at hheader
    cases again with
    | true => exact Or.inl ⟨f₁, rfl, hheader⟩
    | false =>
      have hbody := hheader.pollBody found.body
      simp only
      cases hpb : f₁.pollBody found.body with
      | mk again f₂ =>
        rw [hpb] at hbody
        simp only at hbody
        cases again with
        | true => exact Or.inl ⟨f₂, rfl, hbody⟩
        | false =>
          simp only
          cases hgh : f₂.header with
          | none => exact Or.inr ⟨.pending, f₂, rfl, hbody⟩
          | some header =>
            cases hgb : f₂.body with
            | none => exact Or.inr ⟨.pending, f₂, rfl, hbody⟩
            | some body =>
              obtain ⟨hhash, hsealed⟩ := hbody.sealed header hgh
              simp only
              cases hv : D.validateBodyAgainstHeader body header with
              | ok _ => exact Or.inr ⟨_, _, rfl, hhash, hsealed, hv⟩
              | error error =>
                -- the header stays, and the body is requested again
                have hidle := hbody.body.2 (by simp [hgb])
                refine Or.inl ⟨_, rfl, hbody.hash_eq, ?_, ?_, ?_⟩
                · intro header' he
                  cases he
                  exact ⟨hhash, hsealed⟩
                · rw [← hgh]
                  exact hbody.header
                · refine ⟨fun _ => ?_, fun hne => absurd rfl hne⟩
                  rw [hbody.hash_eq]
                  exact hidle.send _

/-- **One poll** of the full block future. -/
theorem poll_promises (turns : List Turn) (f : FetchFullBlockFuture) (h : Fetches D blockHash f) :
    Promises (Fetches D blockHash) (Sound D blockHash) False (poll D turns f) := by
  induction turns generalizing f with
  | nil =>
    simp only [poll]
    rcases h.turn ⟨none, none⟩ with ⟨f', hturn, hf'⟩ | ⟨answer, f', hturn, hp⟩
    · rw [hturn]
      exact hf'
    · rw [hturn]
      exact hp
  | cons found turns ih =>
    simp only [poll]
    rcases h.turn found with ⟨f', hturn, hf'⟩ | ⟨answer, f', hturn, hp⟩
    · rw [hturn]
      exact ih f' hf'
    · rw [hturn]
      exact hp

end FetchFullBlockFuture

/-! ## A range of headers -/

structure FetchHeadersRangeFuture where
  request : GetHeaders
  pending : Slot GetHeaders

namespace FetchHeadersRangeFuture

def new (request : GetHeaders) : FetchHeadersRangeFuture := ⟨request, Slot.empty.send request⟩

def onResponse (D : DownloadEnv E) (request : GetHeaders) (response : PeerResponse (List Header)) :
    Verdict (List SealedHeader) :=
  match response with
  | .error _ => .refuse
  | .ok headers =>
    if headers.length < request.limit then .refuse
    else
      match headers.map D.sealSlow with
      -- the first header is looked up by index
      | [] => .panic
      | first :: rest =>
        if first.hash ≠ request.startHash then .refuse
        else
          match D.validateHeaderRange (first :: rest).reverse with
          | .ok () => .accept (first :: rest)
          | .error _ => .refuse

def poll (D : DownloadEnv E) (responses : List (PeerResponse (List Header))) (f : FetchHeadersRangeFuture) :
    Poll (List SealedHeader) × FetchHeadersRangeFuture :=
  let (answer, pending) := retry (onResponse D f.request) f.request responses f.pending
  (answer, { f with pending := pending })

/-- exactly one request is outstanding, for the range -/
structure Fetches (request : GetHeaders) (f : FetchHeadersRangeFuture) : Prop where
  request_eq : f.request = request
  waits : f.pending.Waits request

/-- `p` is the validated parent of `c` -/
def ValidatedParent (E : Env) (c p : SealedHeader) : Prop :=
  c.parentHash = p.hash ∧ c.number = p.number + 1 ∧ E.consensus.validateHeaderAgainstParent c p = .ok ()

/-- what the future may resolve to -/
structure Sound (D : DownloadEnv E) (request : GetHeaders) (headers : List SealedHeader) : Prop where
  limit : request.limit ≤ headers.length
  start : headers.head?.map (·.hash) = some request.startHash
  sealed : ∀ header ∈ headers, header = D.sealSlow header.toHeader
  valid : ∀ header ∈ headers, E.consensus.validateHeader header = .ok ()
  parents : headers.IsChain (ValidatedParent E)

variable {D : DownloadEnv E} {request : GetHeaders}

theorem onResponse_accept {response : PeerResponse (List Header)} {headers : List SealedHeader}
    (h : onResponse D request response = .accept headers) : Sound D request headers := by
  simp only [onResponse] at h
  cases response with
  | error error => cases h
  | ok received =>
    simp only at h
    split_ifs at h with hlength
    cases hmap : received.map D.sealSlow with
    | nil =>
      rw [hmap] at h
      cases h
    | cons first rest =>
      rw [hmap] at h
      simp only at h
      split_ifs at h with hstart
      cases hv : D.validateHeaderRange (first :: rest).reverse with
      | error error =>
        rw [hv] at h
        cases h
      | ok _ =>
        rw [hv] at h
        cases h
        obtain ⟨hvalid, hchain⟩ := (D.range_ok _).1 hv
        rw [List.isChain_reverse] at hchain
        have hcount : received.length = (first :: rest).length := by rw [← hmap, List.length_map]
        refine ⟨by omega, by simp [not_not.1 hstart], ?_, ?_, ?_⟩
        · intro header hmem
          rw [← hmap] at hmem
          obtain ⟨header', -, rfl⟩ := List.mem_map.1 hmem
          rfl
        · exact fun header hmem => hvalid header (List.mem_reverse.2 hmem)
        · apply hchain.imp
          intro child parent hagainst
          obtain ⟨hparent, hnumber⟩ := E.consensus.against_parent child parent hagainst
          exact ⟨hparent, hnumber, hagainst⟩

/-- only an empty response to a request for no headers panics -/
theorem onResponse_panic {response : PeerResponse (List Header)} (h : onResponse D request response = .panic) :
    request.limit = 0 := by
  simp only [onResponse] at h
  cases response with
  | error error => cases h
  | ok received =>
    simp only at h
    split_ifs at h with hlength
    cases hmap : received.map D.sealSlow with
    | nil =>
      rw [List.map_eq_nil_iff.1 hmap] at hlength
      simpa using hlength
    | cons first rest =>
      rw [hmap] at h
      simp only at h
      split_ifs at h
      cases hv : D.validateHeaderRange (first :: rest).reverse with
      | error error =>
        rw [hv] at h
        cases h
      | ok _ =>
        rw [hv] at h
        cases h

theorem Fetches.new (request : GetHeaders) : Fetches request (new request) := ⟨rfl, Slot.idle_empty.send request⟩

/-- **One poll** of the headers range future. -/
theorem poll_promises (responses : List (PeerResponse (List Header))) (f : FetchHeadersRangeFuture)
    (h : Fetches request f) :
    Promises (Fetches request) (Sound D request) (request.limit = 0) (poll D responses f) := by
  have hretry := Polling.retry_promises (onResponse D f.request) f.request responses f.pending
    (by rw [h.request_eq]; exact h.waits)
  simp only [poll]
  cases hr : retry (onResponse D f.request) f.request responses f.pending with
  | mk answer pending =>
    rw [hr] at hretry
    rw [h.request_eq] at hretry
    cases answer with
    | ready headers =>
      obtain ⟨response, haccept⟩ := hretry
      exact onResponse_accept haccept
    | pending => exact ⟨h.request_eq, hretry⟩
    | panicked =>
      obtain ⟨response, hpanic⟩ := hretry
      exact onResponse_panic hpanic

end FetchHeadersRangeFuture

/-! ## A block with its ancestors -/

inductive FullBlockWithAncestorsDownloadState where
  | fullBlock (fut : FetchFullBlockFuture)
  | ancestors (block : Block) (fut : FetchHeadersRangeFuture)

structure FetchFullBlockWithAncestorsFuture where
  blockHash : B256
  ancestorCount : ℕ
  state : FullBlockWithAncestorsDownloadState

namespace FetchFullBlockWithAncestorsFuture

def new (blockHash : B256) (ancestorCount : ℕ) : FetchFullBlockWithAncestorsFuture :=
  ⟨blockHash, ancestorCount, .fullBlock (FetchFullBlockFuture.new blockHash)⟩

/-- the second state of the loop -/
def pollAncestors (D : DownloadEnv E) (responses : List (PeerResponse (List Header)))
    (f : FetchFullBlockWithAncestorsFuture) (block : Block) (fut : FetchHeadersRangeFuture) :
    Poll (Block × List SealedHeader) × FetchFullBlockWithAncestorsFuture :=
  match fut.poll D responses with
  | (.ready ancestors, fut) => (.ready (block, ancestors), { f with state := .ancestors block fut })
  | (.pending, fut) => (.pending, { f with state := .ancestors block fut })
  | (.panicked, fut) => (.panicked, { f with state := .ancestors block fut })

/-- what a poll finds ready: turns for the block, then responses for the range -/
structure Found where
  turns : List FetchFullBlockFuture.Turn
  responses : List (PeerResponse (List Header))

def poll (D : DownloadEnv E) (found : Found) (f : FetchFullBlockWithAncestorsFuture) :
    Poll (Block × List SealedHeader) × FetchFullBlockWithAncestorsFuture :=
  match f.state with
  | .fullBlock fut =>
    match FetchFullBlockFuture.poll D found.turns fut with
    | (.ready block, _) =>
      let fut := FetchHeadersRangeFuture.new ⟨block.parentHash, f.ancestorCount⟩
      { f with state := .ancestors block fut }.pollAncestors D found.responses block fut
    | (.pending, fut) => (.pending, { f with state := .fullBlock fut })
    | (.panicked, fut) => (.panicked, { f with state := .fullBlock fut })
  | .ancestors block fut => f.pollAncestors D found.responses block fut

/-- the block is being fetched, or it is there and the range below it is being fetched -/
structure Fetches (D : DownloadEnv E) (blockHash : B256) (ancestorCount : ℕ) (f : FetchFullBlockWithAncestorsFuture) :
    Prop where
  count_eq : f.ancestorCount = ancestorCount
  state : match f.state with
    | .fullBlock fut => fut.Fetches D blockHash
    | .ancestors block fut =>
      FetchFullBlockFuture.Sound D blockHash block ∧ fut.Fetches ⟨block.parentHash, ancestorCount⟩

/-- what the future may resolve to -/
def Sound (D : DownloadEnv E) (blockHash : B256) (ancestorCount : ℕ) (value : Block × List SealedHeader) : Prop :=
  FetchFullBlockFuture.Sound D blockHash value.1 ∧
    FetchHeadersRangeFuture.Sound D ⟨value.1.parentHash, ancestorCount⟩ value.2

variable {D : DownloadEnv E} {blockHash : B256} {ancestorCount : ℕ}

theorem Fetches.new (D : DownloadEnv E) (blockHash : B256) (ancestorCount : ℕ) :
    Fetches D blockHash ancestorCount (new blockHash ancestorCount) :=
  ⟨rfl, FetchFullBlockFuture.Fetches.new D blockHash⟩

theorem pollAncestors_promises (responses : List (PeerResponse (List Header))) (f : FetchFullBlockWithAncestorsFuture)
    (hf : f.ancestorCount = ancestorCount) {block : Block} {fut : FetchHeadersRangeFuture}
    (hb : FetchFullBlockFuture.Sound D blockHash block) (h : fut.Fetches ⟨block.parentHash, ancestorCount⟩) :
    Promises (Fetches D blockHash ancestorCount) (Sound D blockHash ancestorCount) (ancestorCount = 0)
      (f.pollAncestors D responses block fut) := by
  have hpoll := FetchHeadersRangeFuture.poll_promises (D := D) responses fut h
  simp only [pollAncestors]
  cases hp : fut.poll D responses with
  | mk answer fut' =>
    rw [hp] at hpoll
    cases answer with
    | ready ancestors => exact ⟨hb, hpoll⟩
    | pending => exact ⟨hf, hb, hpoll⟩
    | panicked => exact hpoll

/-- **One poll** of the future for a block and its ancestors. -/
theorem poll_promises (found : Found) (f : FetchFullBlockWithAncestorsFuture)
    (h : Fetches D blockHash ancestorCount f) :
    Promises (Fetches D blockHash ancestorCount) (Sound D blockHash ancestorCount) (ancestorCount = 0)
      (poll D found f) := by
  have hstate := h.state
  simp only [poll]
  cases hs : f.state with
  | ancestors block fut =>
    rw [hs] at hstate
    exact pollAncestors_promises found.responses f h.count_eq hstate.1 hstate.2
  | fullBlock fut =>
    rw [hs] at hstate
    have hpoll := FetchFullBlockFuture.poll_promises found.turns fut hstate
    simp only
    cases hp : FetchFullBlockFuture.poll D found.turns fut with
    | mk answer fut' =>
      rw [hp] at hpoll
      cases answer with
      | pending => exact ⟨h.count_eq, hpoll⟩
      | panicked => exact hpoll.elim
      | ready block =>
        refine pollAncestors_promises found.responses _ h.count_eq hpoll ?_
        rw [h.count_eq]
        exact FetchHeadersRangeFuture.Fetches.new _

end FetchFullBlockWithAncestorsFuture

/-! ## Bytecode -/

structure FetchBytecodeFuture where
  codeHash : B256
  pending : Slot B256

namespace FetchBytecodeFuture

def new (codeHash : B256) : FetchBytecodeFuture := ⟨codeHash, Slot.empty.send codeHash⟩

def onResponse (D : DownloadEnv E) (codeHash : B256) (response : PeerResponse Bytes) : Verdict Bytecode :=
  match response with
  | .error _ => .refuse
  | .ok bytes =>
    match D.newRaw bytes with
    | none => .panic
    | some bytecode => if D.hashCode bytecode = codeHash then .accept bytecode else .refuse

def poll (D : DownloadEnv E) (responses : List (PeerResponse Bytes)) (f : FetchBytecodeFuture) :
    Poll Bytecode × FetchBytecodeFuture :=
  let (answer, pending) := retry (onResponse D f.codeHash) f.codeHash responses f.pending
  (answer, { f with pending := pending })

/-- exactly one request is outstanding, for the code -/
structure Fetches (codeHash : B256) (f : FetchBytecodeFuture) : Prop where
  hash_eq : f.codeHash = codeHash
  waits : f.pending.Waits codeHash

variable {D : DownloadEnv E} {codeHash : B256}

theorem Fetches.new (codeHash : B256) : Fetches codeHash (new codeHash) := ⟨rfl, Slot.idle_empty.send codeHash⟩

theorem onResponse_accept {response : PeerResponse Bytes} {bytecode : Bytecode}
    (h : onResponse D codeHash response = .accept bytecode) : D.hashCode bytecode = codeHash := by
  simp only [onResponse] at h
  split at h
  · cases h
  · split at h
    · cases h
    · split_ifs at h with hhash
      cases h
      exact hhash

theorem onResponse_panic {response : PeerResponse Bytes} (h : onResponse D codeHash response = .panic) :
    ∃ bytes, D.newRaw bytes = none := by
  simp only [onResponse] at h
  split at h
  · cases h
  · split at h
    · exact ⟨_, ‹_›⟩
    · split_ifs at h

/-- **One poll** of the bytecode future. -/
theorem poll_promises (responses : List (PeerResponse Bytes)) (f : FetchBytecodeFuture) (h : Fetches codeHash f) :
    Promises (Fetches codeHash) (fun bytecode => D.hashCode bytecode = codeHash) (∃ bytes, D.newRaw bytes = none)
      (poll D responses f) := by
  have hretry := Polling.retry_promises (onResponse D f.codeHash) f.codeHash responses f.pending
    (by rw [h.hash_eq]; exact h.waits)
  simp only [poll]
  cases hr : retry (onResponse D f.codeHash) f.codeHash responses f.pending with
  | mk answer pending =>
    rw [hr] at hretry
    rw [h.hash_eq] at hretry
    cases answer with
    | ready bytecode =>
      obtain ⟨response, haccept⟩ := hretry
      exact onResponse_accept haccept
    | pending => exact ⟨h.hash_eq, hretry⟩
    | panicked =>
      obtain ⟨response, hpanic⟩ := hretry
      exact onResponse_panic hpanic

end FetchBytecodeFuture

/-! ## A witness -/

/-- length of the RLP header of a payload of this length -/
def rlpLengthOfLength (payloadLength : ℕ) : ℕ := if payloadLength < 56 then 1 else Nat.log 256 payloadLength + 2

/-- length of the RLP encoding of a byte string: a byte below 0x80 is its own encoding -/
def rlpBytesLength (bytes : Bytes) : ℕ :=
  match bytes with
  | [byte] => if byte < 0x80 then 1 else 1 + rlpLengthOfLength 1
  | bytes => bytes.length + rlpLengthOfLength bytes.length

/-- length of the RLP encoding of a list of byte strings -/
def rlpLength (witness : List Bytes) : ℕ :=
  let payloadLength := (witness.map rlpBytesLength).sum
  payloadLength + rlpLengthOfLength payloadLength

structure FetchWitnessFuture where
  blockHash : B256
  pending : Slot B256

namespace FetchWitnessFuture

def new (blockHash : B256) : FetchWitnessFuture := ⟨blockHash, Slot.empty.send blockHash⟩

/-- the entries of a witness are not checked -/
def onResponse (response : PeerResponse (List Bytes)) : Verdict ExecutionWitness :=
  match response with
  | .error _ => .refuse
  | .ok witness => if witness.isEmpty then .refuse else .accept ⟨witness, rlpLength witness⟩

def poll (responses : List (PeerResponse (List Bytes))) (f : FetchWitnessFuture) :
    Poll ExecutionWitness × FetchWitnessFuture :=
  let (answer, pending) := retry onResponse f.blockHash responses f.pending
  (answer, { f with pending := pending })

/-- exactly one request is outstanding, for the witness -/
structure Fetches (blockHash : B256) (f : FetchWitnessFuture) : Prop where
  hash_eq : f.blockHash = blockHash
  waits : f.pending.Waits blockHash

variable {blockHash : B256}

theorem Fetches.new (blockHash : B256) : Fetches blockHash (new blockHash) := ⟨rfl, Slot.idle_empty.send blockHash⟩

/-- **One poll** of the witness future. -/
theorem poll_promises (responses : List (PeerResponse (List Bytes))) (f : FetchWitnessFuture)
    (h : Fetches blockHash f) :
    Promises (Fetches blockHash) (fun witness => witness.stateWitness ≠ []) False (poll responses f) := by
  have hretry := Polling.retry_promises onResponse f.blockHash responses f.pending (by rw [h.hash_eq]; exact h.waits)
  simp only [poll]
  cases hr : retry onResponse f.blockHash responses f.pending with
  | mk answer pending =>
    rw [hr, h.hash_eq] at hretry
    cases answer with
    | ready witness =>
      obtain ⟨response, haccept⟩ := hretry
      simp only [onResponse] at haccept
      split at haccept
      · cases haccept
      · split_ifs at haccept with hempty
        cases haccept
        exact fun hnil => hempty (List.isEmpty_iff.2 hnil)
    | pending => exact ⟨h.hash_eq, hretry⟩
    | panicked =>
      obtain ⟨response, hpanic⟩ := hretry
      simp only [onResponse] at hpanic
      split at hpanic
      · cases hpanic
      · split_ifs at hpanic

end FetchWitnessFuture

/-! ## All futures -/

/-- **Downloads are sound and never stuck.** Whatever the polls of a future find ready: it resolves only to what was
asked for and has passed its checks; and while it is pending, every part still missing has exactly one request
outstanding. -/
theorem downloads_sound (D : DownloadEnv E) :
    (∀ blockHash turns, Promises (FetchFullBlockFuture.Fetches D blockHash)
        (FetchFullBlockFuture.Sound D blockHash) False
        (polls (FetchFullBlockFuture.poll D) turns (FetchFullBlockFuture.new blockHash))) ∧
      (∀ request responses, Promises (FetchHeadersRangeFuture.Fetches request)
        (FetchHeadersRangeFuture.Sound D request) (request.limit = 0)
        (polls (FetchHeadersRangeFuture.poll D) responses (FetchHeadersRangeFuture.new request))) ∧
      (∀ blockHash ancestorCount found, Promises (FetchFullBlockWithAncestorsFuture.Fetches D blockHash ancestorCount)
        (FetchFullBlockWithAncestorsFuture.Sound D blockHash ancestorCount) (ancestorCount = 0)
        (polls (FetchFullBlockWithAncestorsFuture.poll D) found
          (FetchFullBlockWithAncestorsFuture.new blockHash ancestorCount))) ∧
      ∀ codeHash responses, Promises (FetchBytecodeFuture.Fetches codeHash)
        (fun bytecode => D.hashCode bytecode = codeHash) (∃ bytes, D.newRaw bytes = none)
        (polls (FetchBytecodeFuture.poll D) responses (FetchBytecodeFuture.new codeHash)) := by
  refine ⟨fun blockHash turns => ?_, fun request responses => ?_, fun blockHash ancestorCount found => ?_,
    fun codeHash responses => ?_⟩
  · apply Polling.polls_rule FetchFullBlockFuture.poll_promises
    exact FetchFullBlockFuture.Fetches.new D blockHash
  · apply Polling.polls_rule FetchHeadersRangeFuture.poll_promises
    exact FetchHeadersRangeFuture.Fetches.new request
  · apply Polling.polls_rule FetchFullBlockWithAncestorsFuture.poll_promises
    exact FetchFullBlockWithAncestorsFuture.Fetches.new D blockHash ancestorCount
  · apply Polling.polls_rule FetchBytecodeFuture.poll_promises
    exact FetchBytecodeFuture.Fetches.new codeHash

/-- a block is as long as its number, and code is its own hash; what begins as a delegation must be one -/
def smallDownloads : DownloadEnv smallEnv where
  hashHeader header := BitVec.ofNat 256 (header.number + 1)
  validateBodyAgainstHeader body _ := if body.transactions = [] then .ok () else .error (.other "transactions")
  validateHeaderRange headers :=
    if headers.IsChain fun parent child => child.parentHash = parent.hash ∧ child.number = parent.number + 1 then .ok ()
    else .error (.other "range")
  newRaw bytes :=
    if bytes.take 2 = [0xef, 0x01] ∧ (bytes.length ≠ 23 ∨ bytes.take 3 ≠ [0xef, 0x01, 0x00]) then none
    else some ⟨bytes⟩
  hashCode bytecode := spell bytecode.originalBytes
  range_ok headers := by
    have hagainst : ∀ child parent : SealedHeader,
        smallEnv.consensus.validateHeaderAgainstParent child parent = .ok () ↔
          child.parentHash = parent.hash ∧ child.number = parent.number + 1 := by
      intro child parent
      simp only [smallEnv, smallConsensus]
      split_ifs with h <;> simp [h]
    simp only [hagainst]
    split_ifs with h
    · exact iff_of_true rfl ⟨fun _ _ => rfl, h⟩
    · exact iff_of_false (by simp) fun hc => h hc.2

/-- a dropped request, then two headers of which the second is not the parent, then the right ones -/
example : (polls (FetchHeadersRangeFuture.poll smallDownloads)
    [[.error .requestDropped, .ok [⟨2, 2, 0, 0, []⟩, ⟨1, 7, 0, 0, []⟩]],
      [.ok [⟨2, 2, 0, 0, []⟩, ⟨1, 1, 0, 0, []⟩]]]
    (FetchHeadersRangeFuture.new ⟨3, 2⟩)).1 = .ready [⟨⟨2, 2, 0, 0, []⟩, 3⟩, ⟨⟨1, 1, 0, 0, []⟩, 2⟩] := by
  decide +kernel

end Ress
