/-
Syncing from a node.

A node that is behind, and whose peer is a node too. The downloads of the one ask the provider of the other
(`RessProvider.answers`), and check what they are answered with: nothing of it is taken on trust. The peer has executed
what it serves, whatever witnesses it was sent itself, so the blocks are valid on one another (`servedGap`), and they
are valid for the node that is behind.

- `answers_fullBlock`, `answers_bytecode`, `answers_witness`: what is served passes the checks of the downloads.
- `syncs_from_node`: the node ends with the served branch, and its last block is the head.

How the network carries requests and responses is left out, and that the peer is asked at all is the premise `Fair`.
-/
import Ress.Download.HonestRanges
import Ress.Engine.CatchUp
import Ress.Engine.Serving

namespace Ress

/-- what the downloads of a node come to when a peer answers each request with what its provider has; finalized blocks
are not asked for -/
def RessProvider.answers {E : Env} (D : DownloadEnv E) (p : RessProvider) : Network where
  fullBlock hash :=
    match p.header hash, p.blockBody hash with
    | .ok (some header), .ok (some body) =>
      (FetchFullBlockFuture.poll D [FetchFullBlockFuture.honestTurn header body] (.new hash)).1.value
    | _, _ => none
  bytecode codeHash :=
    match p.bytecode codeHash with
    | .ok (some bytes) => (FetchBytecodeFuture.poll D [.ok bytes] (.new codeHash)).1.value
    | _ => none
  witness hash :=
    match p.witness hash with
    | .ok nodes => (FetchWitnessFuture.poll [.ok nodes] (.new hash)).1.value
    | .error _ => none
  finalizedBlock _ := none

/-- blocks above `block 0` that a node serves with their witnesses, each on the one below it -/
structure EngineTree.ServesBranch {E : Env} (t : EngineTree E) (W : World) (length : ℕ) (block : ℕ → Block)
    (nodes : ℕ → List Bytes) : Prop where
  base : W.Knows (block 0).toSealedHeader
  parent : ∀ i < length, (block (i + 1)).parentHash = (block i).hash
  serves : ∀ i < length, t.Serves (block (i + 1)) (nodes (i + 1))
  recovers : ∀ i < length, E.tryRecover (block (i + 1)) = true

/-- what the downloads check holds of valid blocks and of codes -/
structure DownloadLaw {E : Env} (D : DownloadEnv E) (code : B256 → Option Bytecode) : Prop where
  /-- the checks of a block include those of its body -/
  body : ∀ block, EngineTree.validateBlock E block = .ok () →
    D.validateBodyAgainstHeader block.body block.toSealedHeader = .ok ()
  /-- a code is found again from its bytes -/
  code : ∀ codeHash bytecode, code codeHash = some bytecode →
    D.newRaw bytecode.originalBytes = some bytecode ∧ D.hashCode bytecode = codeHash

variable {E : Env} {W : World} {code : B256 → Option Bytecode} {laws : EvmLaws E} {D : DownloadEnv E} {block : Block}
  {nodes : List Bytes}

namespace EngineTree

variable {t : EngineTree E}

/-- the headers of the branch are known -/
theorem ServesBranch.known {length : ℕ} {branch : ℕ → Block} {witness : ℕ → List Bytes}
    (h : t.ServesBranch W length branch witness) (hknown : t.provider.chainState.Known W) :
    ∀ i ≤ length, W.Knows (branch i).toSealedHeader
  | 0, _ => h.base
  | i + 1, hi => (hknown _ _ ((h.serves i hi).stored hknown).1).2

/-! ## Responses pass their checks -/

theorem Serves.answers_fullBlock (h : t.Serves block nodes) (hsealed : D.sealSlow block.toHeader = block.toSealedHeader)
    (hbody : D.validateBodyAgainstHeader block.body block.toSealedHeader = .ok ()) :
    (t.provider.answers D).fullBlock block.hash = some block := by
  have hhash : D.hashHeader block.toHeader = block.hash := congrArg SealedHeader.hash hsealed
  have hturn := FetchFullBlockFuture.turn_honest
    (FetchFullBlockFuture.Fetches.new D (D.hashHeader block.toHeader))
    (fun found hfound => by cases hfound) block.body
  simp only [RessProvider.answers, h.header, h.body, FetchFullBlockFuture.poll]
  rw [hhash] at hturn
  have hnone : (FetchFullBlockFuture.new block.hash).body = none := rfl
  rw [hnone, Option.getD_none, hsealed, if_pos hbody] at hturn
  cases hpoll : (FetchFullBlockFuture.new block.hash).turn D
      (FetchFullBlockFuture.honestTurn block.toHeader block.body) with
  | mk answer f =>
    rw [hpoll] at hturn
    obtain rfl : answer = some (.ready block) := hturn
    rfl

theorem Serves.answers_witness (h : t.Serves block nodes) :
    (t.provider.answers D).witness block.hash = some ⟨nodes, rlpLength nodes⟩ := by
  have hnonempty : nodes.isEmpty ≠ true := fun hempty => h.nonempty (List.isEmpty_iff.1 hempty)
  simp only [RessProvider.answers, h.witness, FetchWitnessFuture.poll, Polling.retry, FetchWitnessFuture.onResponse,
    if_neg hnonempty]
  rfl

theorem answers_bytecode (hD : DownloadLaw D code) {codeHash : B256} {bytecode : Bytecode}
    (hcode : code codeHash = some bytecode)
    (h : t.provider.bytecode codeHash = .ok (some bytecode.originalBytes)) :
    (t.provider.answers D).bytecode codeHash = some bytecode := by
  obtain ⟨hraw, hhash⟩ := hD.code codeHash bytecode hcode
  have hnew : (FetchBytecodeFuture.new codeHash).codeHash = codeHash := rfl
  simp only [RessProvider.answers, h, FetchBytecodeFuture.poll, Polling.retry, FetchBytecodeFuture.onResponse, hraw,
    hhash, hnew, if_true]
  rfl

end EngineTree

/-! ## What the peer has is a gap for the other node -/

namespace Node

open ConsensusEngine (SyncsTo Io)
open EngineTree (HoldsTo)

variable {source n : Node E} {length : ℕ} {branch : ℕ → Block} {witness : ℕ → List Bytes} {all : Network}

/-- the blocks that a node serves are valid on one another -/
def servedGap (laws : EvmLaws E) (hleaf : LeafLaw E) (hmap : StateRoot.StorageTrieMap E)
    (hsource : source.ReachedSame (settlement laws W code) W)
    (hserves : source.engine.tree.ServesBranch W length branch witness) : Gap E W code where
  length := length
  block := branch
  witness i := ⟨witness i, rlpLength (witness i)⟩
  known := by
    have hholds := hsource.reached.holdsTo (EngineTree.settlement_upholds laws hleaf hmap W code)
    exact hserves.known hholds.coherent.wf.chain.state.known
  valid i hi sched := by
    have hholds := hsource.reached.holdsTo (EngineTree.settlement_upholds laws hleaf hmap W code)
    have hbelow := hserves.known hholds.coherent.wf.chain.state.known i hi.le
    obtain ⟨w, hnodes, hsettles, -⟩ := validated hsource hholds (hserves.serves i hi)
    obtain ⟨parent, hknown, hp, hvalid⟩ := hsettles.validWith
    -- the parent in the verdict is the block below
    obtain rfl : parent = (branch i).toSealedHeader := hknown.eq hbelow (hp.trans (hserves.parent i hi))
    exact hvalid _ sched hnodes.symm
  recovers := hserves.recovers

/-- the peer has the whole gap, with its codes -/
theorem servedGap_servedBy (laws : EvmLaws E) (hleaf : LeafLaw E) (hmap : StateRoot.StorageTrieMap E)
    (hsource : source.ReachedSame (settlement laws W code) W)
    (hserves : source.engine.tree.ServesBranch W length branch witness)
    (hread : source.engine.tree.provider.database.readError = none) (hD : DownloadLaw D code)
    (hsealed : ∀ i < length, D.sealSlow (branch (i + 1)).toHeader = (branch (i + 1)).toSealedHeader)
    (hpeer : (source.engine.tree.provider.answers D).From all) :
    (servedGap laws hleaf hmap hsource hserves).ServedBy all where
  fullBlock i hi := by
    have hvalid := (servedGap laws hleaf hmap hsource hserves).valid i hi StateRoot.sortedSchedule
    have hbody := hD.body _ (Knowledge.judge_ok hvalid).1
    have hanswer := (hserves.serves i hi).answers_fullBlock (hsealed i hi) hbody
    have hall := hpeer .fullBlock _ _ (congrArg (Option.map DownloadData.fullBlock) hanswer)
    obtain ⟨block, hblock, heq⟩ := Option.map_eq_some_iff.1 hall
    cases heq
    exact hblock
  witness i hi := by
    have hanswer := (hserves.serves i hi).answers_witness (D := D)
    have hall := hpeer .witness _ _ (congrArg (Option.map (DownloadData.witness (branch (i + 1)).hash)) hanswer)
    obtain ⟨w, hw, heq⟩ := Option.map_eq_some_iff.1 hall
    cases heq
    exact hw
  bytecode i hi c hc := by
    have hholds := hsource.reached.holdsTo (EngineTree.settlement_upholds laws hleaf hmap W code)
    obtain ⟨w, hnodes, -, hcodes⟩ := validated hsource hholds (hserves.serves i hi)
    have hnamed : c ∈ w.bytecodeHashes E.codec := by
      simp only [ExecutionWitness.bytecodeHashes, hnodes]
      exact hc
    obtain ⟨bytecode, hcode, hserved⟩ := bytecode_served hholds (hcodes hnamed)
    have hanswer := EngineTree.answers_bytecode hD hcode (hserved hread)
    have hall := hpeer .bytecode _ _ (congrArg (Option.map (DownloadData.bytecode c)) hanswer)
    obtain ⟨b, hb, heq⟩ := Option.map_eq_some_iff.1 hall
    cases heq
    exact ⟨_, hcode, hb⟩

/-- **A node syncs from a node.** The peer is in any state of any run, whatever witnesses it was sent, and serves a
branch of at most 256 blocks above one that the other node has. Then a forkchoice update to the end of the branch, and
as many polls in which the peer answers as there are blocks, witnesses and bytecodes, make that block the head of the
other node, which serves the branch in turn. -/
theorem syncs_from_node (laws : EvmLaws E) (hleaf : LeafLaw E) (hmap : StateRoot.StorageTrieMap E)
    (hsource : source.ReachedSame (settlement laws W code) W)
    (hserves : source.engine.tree.ServesBranch W length branch witness)
    (hread : source.engine.tree.provider.database.readError = none) (hD : DownloadLaw D code)
    (hsealed : ∀ i < length, D.sealSlow (branch (i + 1)).toHeader = (branch (i + 1)).toSealedHeader)
    (hpeer : (source.engine.tree.provider.answers D).From all) (hreached : n.Reached (trusting code) W)
    (hrunning : n.terminated = none) (hidle : n.engine.fromBeaconEngine = [])
    (hbehind : n.engine.Behind (servedGap laws hleaf hmap hsource hserves) all) {state : ForkchoiceState}
    (hstate : SyncsTo (servedGap laws hleaf hmap hsource hserves) n.engine.tree state)
    (htracks : ∀ tracker, E.tracker.syncTargetState (E.tracker.setLatest tracker state (.valid ⟨.syncing, none⟩)) =
      some state) (attrs : Option E.validator.PayloadAttributes) (tx version : ℕ) {io : Io} {ios answered : List Io}
    (hfair : ∀ io' ∈ io :: ios, Fair all io') (hsub : answered.Sublist ios)
    (hanswers : ∀ io' ∈ answered, io'.network = all)
    (henough : (servedGap laws hleaf hmap hsource hserves).cost length ≤ answered.length) :
    let synced := Run.run step n (.arrive (.forkchoiceUpdated state attrs tx version) :: .poll io :: ios.map .poll)
    synced.terminated = none ∧ synced.engine.tree.canonicalHead = (branch length).numHash ∧
      synced.engine.tree.ServesBranch W length branch witness := by
  have hserved := servedGap_servedBy laws hleaf hmap hsource hserves hread hD hsealed hpeer
  have hstart := advancing_of_behind hserved hreached hrunning hidle hbehind hstate htracks attrs tx version
    (hfair io List.mem_cons_self)
  have hend := hstart.closes laws hleaf hserved (fun io' hmem => hfair io' (List.mem_cons_of_mem io hmem)) hsub
    hanswers henough
  have hclosed := hend.synced.closed
  refine ⟨hend.running, hclosed.head, hserves.base, hserves.parent, fun i hi => ?_, hserves.recovers⟩
  exact .of_stored (hclosed.stored (i + 1) hi) (hclosed.witnesses (i + 1) i.succ_pos hi)
    (hserves.serves i hi).nonempty

/-! ## Two nodes -/

section Small

open Chain (mainBlock twoBranches mainBlock_knows)

/-- as `smallDownloads`, for bodies with transactions too -/
def peerDownloads : DownloadEnv smallEnv := { smallDownloads with validateBodyAgainstHeader := fun _ _ => .ok () }

/-- both blocks come as payloads without their witnesses; the first witness has a code requested -/
def peerRun : List (NodeEvent smallEnv) :=
  [.arrive (.newPayload (mainBlock 1, none) 1), .poll (smallPass Network.silent), .poll (smallPass smallPeers),
    .poll (smallPass smallPeers), .arrive (.newPayload (mainBlock 2, none) 2), .poll (smallPass Network.silent),
    .poll (smallPass smallPeers)]

/-- the node after so many of these events -/
def peerAfter (k : ℕ) : Node smallEnv :=
  Run.run step smallLaunch (peerRun.take k)

theorem peerRun_delivered : (peerAfter 1).engine.delivered (smallPass Network.silent) = none ∧
    (peerAfter 2).engine.delivered (smallPass smallPeers) = some (.witness 2 codeWitness) ∧
    (peerAfter 3).engine.delivered (smallPass smallPeers) = some (.bytecode 7 ⟨[7]⟩) ∧
    (peerAfter 5).engine.delivered (smallPass Network.silent) = none ∧
    (peerAfter 6).engine.delivered (smallPass smallPeers) = some (.witness 3 codeWitness) := by
  decide +kernel

/-- the polls deliver nothing, or witnesses and the code with hash 7 -/
theorem peer_poll {n : Node smallEnv} {network : Network} {delivered : Option DownloadData}
    (h : n.engine.delivered (smallPass network) = delivered)
    (hkinds : ∀ data, delivered = some data →
      data = .witness 2 codeWitness ∨ data = .witness 3 codeWitness ∨ data = .bytecode 7 ⟨[7]⟩) :
    (EventFits twoBranches n (.poll (smallPass network)) ∧
        EventServed (settlement smallEvmLaws twoBranches smallCode) n (.poll (smallPass network))) ∧
      EventSame n (.poll (smallPass network)) := by
  refine ⟨⟨?_, rfl, ?_⟩, ?_⟩ <;>
    · intro data hdata
      rcases hkinds data (h.symm.trans hdata) with rfl | rfl | rfl <;> trivial

theorem peerAfter_reachedSame :
    (peerAfter 7).ReachedSame (settlement smallEvmLaws twoBranches smallCode) twoBranches := by
  obtain ⟨h1, h2, h3, h5, h6⟩ := peerRun_delivered
  have hpayload : ∀ k < 400, ∀ b, smallValidator.ensureWellFormedPayload (mainBlock k, none) = .ok b →
      twoBranches.Knows b.toSealedHeader := by
    intro k hk b hb
    cases hb
    exact mainBlock_knows hk
  refine ⟨⟨∅, none, none⟩, peerRun, ?_, ⟨⟨⟨hpayload 1 (by omega), trivial⟩, trivial⟩, peer_poll h1 (by simp),
    peer_poll h2 (by simp), peer_poll h3 (by simp), ⟨⟨hpayload 2 (by omega), trivial⟩, trivial⟩, peer_poll h5 (by simp),
    peer_poll h6 (by simp), trivial⟩, rfl⟩
  intro hash bytecode h
  cases (FMap.get_empty hash).symm.trans h

theorem peerAfter_serves : (peerAfter 7).engine.tree.ServesBranch twoBranches 2 mainBlock
    fun _ => codeWitness.stateWitness := by
  refine ⟨mainBlock_knows (by omega), fun i hi => ?_, fun i hi => ?_, fun _ _ => rfl⟩
  · interval_cases i <;> rfl
  · refine .of_stored ?_ ?_ (by decide)
    · interval_cases i <;> decide +kernel
    · interval_cases i <;> decide +kernel

theorem peerDownloads_law : DownloadLaw peerDownloads smallCode := by
  refine ⟨fun _ _ => rfl, fun codeHash bytecode hcode => ?_⟩
  simp only [smallCode] at hcode
  split_ifs at hcode with h7
  cases hcode
  rw [h7]
  decide

/-- a new node gets both blocks, their witnesses and the code from the other one, and is where that one is -/
theorem syncs_from_node_small :
    let all := (peerAfter 7).engine.tree.provider.answers peerDownloads
    let synced := Run.run step smallLaunch (.arrive (.forkchoiceUpdated ⟨3, 0, 0⟩ none 1 3) ::
      .poll (smallPass Network.silent) :: (smallPasses all).map .poll)
    synced.terminated = none ∧ synced.engine.tree.canonicalHead = (mainBlock 2).numHash ∧
      synced.engine.tree.ServesBranch twoBranches 2 mainBlock fun _ => codeWitness.stateWitness := by
  intro all
  refine syncs_from_node smallEvmLaws smallEnv_leafLaw StateRoot.smallEnv_storageTrieMap peerAfter_reachedSame
    peerAfter_serves rfl peerDownloads_law (fun i hi => ?_) (fun _ _ _ h => h) smallLaunch_reached rfl rfl
    (smallLaunch_behind _ all rfl rfl) ⟨rfl, by decide, Or.inl rfl, Or.inl rfl⟩ (fun _ => rfl) none 1 3
    (smallPasses_fair all) (List.sublist_cons_self _ _) ?_ ?_
  · interval_cases i <;> rfl
  · intro io hio
    rw [List.eq_of_mem_replicate hio]
    rfl
  · decide

end Small

end Node

end Ress
