/-
What the engine's handlers do to the engine tree, said once; invariants of the tree over runs of a node are derived
from these lemmas.

- `Follows`: a tree event either changes nothing of the tree or makes a block canonical.
- `insertUnlocked_cases`: one round of the loop of `on_download_outcome`.
- `Received`: the receipt of a download outcome, before the unlocked blocks are tried.
- `Messages`: a message handled.
- `Messages.keeps`, `onDownloadOutcome_tree`, `step_tree`: the rules by which a property of the tree is carried through a
  message, a download outcome, and an event of a node. `step_core` is the last one with the downloader.
-/
import Ress.Download.Requests
import Ress.Engine.ConsensusEngine
import Ress.Tree.Handling

namespace Ress

namespace EngineTree

variable {E : Env}

/-- the tree after a tree event: nothing, or a block is made canonical -/
inductive Follows (t : EngineTree E) : EngineTree E → Prop
  | same : Follows t t
  | made (target : B256) : Follows t (t.makeCanonical target)

theorem Follows.keeps {P : EngineTree E → Prop} {t t' : EngineTree E} (hf : Follows t t')
    (hmade : ∀ target, P (t.makeCanonical target)) (h : P t) : P t' := by
  cases hf with
  | same => exact h
  | made target => exact hmade target

/-- only what no claim about blocks, buffer or chain looks at differs -/
structure Tracks (t t' : EngineTree E) : Prop where
  provider : t'.provider = t.provider
  canonicalHead : t'.canonicalHead = t.canonicalHead
  blockBuffer : t'.blockBuffer = t.blockBuffer
  invalidHeaders : t'.invalidHeaders = t.invalidHeaders
  insertions : t'.insertions = t.insertions

theorem Tracks.chain {t t' : EngineTree E} (h : Tracks t t') : t'.chain = t.chain := by
  unfold EngineTree.chain
  rw [h.provider, h.canonicalHead]

theorem Tracks.shrinks {t t' : EngineTree E} (h : Tracks t t') : Shrinks t t' := by
  refine Shrinks.of_same h.blockBuffer ?_
  simp only [storedHashes, Stored, h.provider]

theorem Tracks.wf {W : World} {t t' : EngineTree E} (h : Tracks t t') (hwf : Wf W t) : Wf W t' := by
  refine ⟨?_, ?_⟩
  · rw [h.chain]
    exact hwf.chain
  · rw [h.blockBuffer]
    exact hwf.buffer

/-- the check hash of a payload looks at the blocks of the buffer only -/
theorem payloadCheck_withBuffer (t : EngineTree E) (b : Block) {buffer : BlockBuffer}
    (hblocks : buffer.blocks = t.blockBuffer.blocks) : (t.withBuffer buffer).payloadCheck b = t.payloadCheck b := by
  have hlowest : (t.withBuffer buffer).lowestBufferedAncestorOr b.hash = t.lowestBufferedAncestorOr b.hash := by
    simp only [lowestBufferedAncestorOr, BlockBuffer.lowestAncestor, withBuffer, hblocks]
  simp only [payloadCheck, hlowest]

/-- the witness that a payload takes out of the buffer -/
abbrev takenWitness (t : EngineTree E) (payload : E.validator.ExecutionData) : Option ExecutionWitness :=
  (t.blockBuffer.removeWitness (E.validator.blockHash payload)).1

/-- the tree once the payload has taken it -/
abbrev witnessTaken (t : EngineTree E) (payload : E.validator.ExecutionData) : EngineTree E :=
  t.withBuffer (t.blockBuffer.removeWitness (E.validator.blockHash payload)).2

/-- the payload is handled with the witness that it takes -/
abbrev afterPayload (t : EngineTree E) (sched : StateRoot.Schedule) (payload : E.validator.ExecutionData) :
    Answer × EngineTree E := (t.witnessTaken payload).onNewPayload sched payload (t.takenWitness payload)

end EngineTree

namespace ConsensusEngine

open EngineDownloader (Grows)
open EngineTree (Follows Tracks Receives Updates Forgets Framed Shrinks)

variable {E : Env}

@[simp] theorem send_tree (e : ConsensusEngine E) (tx : ℕ) (r : Response) : (e.send tx r).tree = e.tree := rfl

@[simp] theorem releaseParked_tree (e : ConsensusEngine E) (hash : B256)
    (result : Except InsertBlockFatalError PayloadStatus) : (e.releaseParked hash result).tree = e.tree := by
  unfold releaseParked
  split
  · split_ifs <;> rfl
  · rfl

theorem onTreeEvent_follows (e : ConsensusEngine E) (event : TreeEvent) :
    Follows e.tree (e.onTreeEvent event).tree := by
  cases event with
  | treeAction action =>
    obtain ⟨target⟩ := action
    exact Follows.made target
  | download request =>
    cases request with
    | block hash => exact Follows.same
    | witness hash => exact Follows.same
    | finalized hash => exact Follows.same

theorem onMaybeTreeEvent_follows (e : ConsensusEngine E) (event : Option TreeEvent) :
    Follows e.tree (e.onMaybeTreeEvent event).tree := by
  cases event with
  | none => exact Follows.same
  | some event => exact onTreeEvent_follows e event

/-! ## One unlocked block -/

/-- **One unlocked block.** A block that is not ready stays. A ready one is taken out of the buffer with its witness and
received; a tree event may follow. -/
theorem insertUnlocked_cases (e : ConsensusEngine E) (sched : StateRoot.Schedule) (hash : B256) :
    (¬ e.tree.blockBuffer.Removable hash ∧
        (e.insertUnlocked sched hash).tree = e.tree.withBuffer (e.tree.blockBuffer.removeBlock hash).2) ∨
      ∃ b w answer t, e.tree.blockBuffer.blocks.get hash = some b ∧ e.tree.blockBuffer.witnesses.get hash = some w ∧
        e.tree.blockBuffer.missing hash = ∅ ∧
        Receives sched.order (e.tree.withBuffer (e.tree.blockBuffer.removeBlock hash).2)
          ((e.tree.withBuffer (e.tree.blockBuffer.removeBlock hash).2).lowestBufferedAncestorOr b.hash) b (some w)
          answer t ∧
        Follows t (e.insertUnlocked sched hash).tree := by
  have hcases := BlockBuffer.removeBlock_cases e.tree.blockBuffer hash
  unfold insertUnlocked
  cases hr : e.tree.blockBuffer.removeBlock hash with
  | mk taken buffer =>
    rw [hr] at hcases
    simp only at hcases
    cases taken with
    | none =>
      rcases hcases with ⟨hnot, -⟩ | ⟨b, w, -, -, -, hsome, -⟩
      · exact Or.inl ⟨hnot, rfl⟩
      · cases hsome
    | some x =>
      obtain ⟨block, witness⟩ := x
      rcases hcases with ⟨-, hnone⟩ | ⟨b, w, hb, hw, hm, hsome, -, -⟩
      · cases hnone
      · cases hsome
        have hreceive := EngineTree.onDownloadedBlock_receives (e.tree.withBuffer buffer) sched block witness
        refine Or.inr ⟨block, witness, _, _, hb, hw, hm, hreceive, ?_⟩
        simp only [releaseParked_tree]
        exact onMaybeTreeEvent_follows
          { e with tree := ((e.tree.withBuffer buffer).onDownloadedBlock sched block witness).2 } _

/-- **An unlocked block** keeps a property that holds once the block is out of the buffer. -/
theorem insertUnlocked_framed {P : EngineTree E → Prop} (hk : Framed P) (e : ConsensusEngine E)
    (sched : StateRoot.Schedule) (hash : B256) (hkeyed : e.tree.blockBuffer.Keyed)
    (h : P (e.tree.withBuffer (e.tree.blockBuffer.removeBlock hash).2)) : P (e.insertUnlocked sched hash).tree := by
  rcases insertUnlocked_cases e sched hash with ⟨-, heq⟩ | ⟨b, w, answer, t, hb, hw, hm, hr, hf⟩
  · rw [heq]
    exact h
  · have hempty := BlockBuffer.removeBlock_empty ⟨⟨b, hb⟩, ⟨w, hw⟩, hm⟩
    rw [← hkeyed hash b hb] at hempty hr h
    have hreceived := hk.receives hr hempty h
    exact hf.keeps (fun target => hk.makeCanonical target hreceived) hreceived

/-! ## The receipt of an outcome -/

/-- what `on_download_outcome` does before its loop, and the hashes that the loop tries -/
inductive Received (sched : StateRoot.Schedule) (e : ConsensusEngine E) :
    DownloadData → Except InsertBlockFatalError (Finset B256) × ConsensusEngine E → Prop
  | finalized {block : Block} {ancestors : List SealedHeader} (hrecover : E.tryRecover block = true) :
      Received sched e (.finalizedBlock block ancestors)
        (.ok {block.hash}, { e with tree := e.tree.onFinalizedBlock block ancestors })
  | unrecovered {block : Block} {ancestors : List SealedHeader} (hrecover : E.tryRecover block = false) :
      Received sched e (.finalizedBlock block ancestors) (.error (.provider .senderRecoveryError), e)
  | buffered {block : Block} (hrecover : E.tryRecover block = true) :
      Received sched e (.fullBlock block)
        (.ok {block.hash}, { e with tree := e.tree.withBuffer (e.tree.blockBuffer.insertBlock block) })
  | dropped {block : Block} (hrecover : E.tryRecover block = false) : Received sched e (.fullBlock block) (.ok ∅, e)
  | lookupFailed {blockHash : B256} {witness : ExecutionWitness} {error : DatabaseError}
      (hmissing : e.tree.provider.missingCodeHashes (witness.bytecodeHashes E.codec) = .error error) :
      Received sched e (.witness blockHash witness) (.error (.provider (.database error)), e)
  | complete {blockHash : B256} {witness : ExecutionWitness}
      (hmissing : e.tree.provider.missingCodeHashes (witness.bytecodeHashes E.codec) = .ok ∅) :
      Received sched e (.witness blockHash witness)
        (.ok {blockHash}, { e with tree := e.tree.withBuffer (e.tree.blockBuffer.insertWitness blockHash witness ∅) })
  | incomplete {blockHash : B256} {witness : ExecutionWitness} {missing : Finset B256}
      (hmissing : e.tree.provider.missingCodeHashes (witness.bytecodeHashes E.codec) = .ok missing)
      (hne : missing ≠ ∅) :
      Received sched e (.witness blockHash witness) (.ok ∅, downloadBytecodes { e with
        tree := e.tree.withBuffer (e.tree.blockBuffer.insertWitness blockHash witness missing) } sched missing)
  | bytecode {codeHash : B256} {bytecode : Bytecode} :
      Received sched e (.bytecode codeHash bytecode) (.ok (e.tree.onBytecode codeHash bytecode).1,
        { e with tree := (e.tree.onBytecode codeHash bytecode).2 })

theorem receiveOutcome_received (e : ConsensusEngine E) (sched : StateRoot.Schedule) (data : DownloadData) :
    Received sched e data (e.receiveOutcome sched data) := by
  simp only [receiveOutcome]
  cases data with
  | finalizedBlock block ancestors =>
    simp only
    split_ifs with hrecover
    · exact Received.finalized hrecover
    · exact Received.unrecovered (Bool.eq_false_iff.2 hrecover)
  | fullBlock block =>
    simp only
    split_ifs with hrecover
    · exact Received.buffered hrecover
    · exact Received.dropped (Bool.eq_false_iff.2 hrecover)
  | witness blockHash witness =>
    simp only
    cases hmissing : e.tree.provider.missingCodeHashes (witness.bytecodeHashes E.codec) with
    | error error => exact Received.lookupFailed hmissing
    | ok missing =>
      simp only
      split_ifs with hnone
      · subst hnone
        exact Received.complete hmissing
      · exact Received.incomplete hmissing hnone
  | bytecode codeHash bytecode => exact Received.bytecode

/-! ## A message -/

/-- a message handled -/
inductive Messages (sched : StateRoot.Schedule) (t : EngineTree E) : BeaconEngineMessage E → EngineTree E → Prop
  | malformed {payload : E.validator.ExecutionData} {tx : ℕ} {t₁ t₂ : EngineTree E}
      (hf : Forgets (t.withBuffer (t.blockBuffer.removeWitness (E.validator.blockHash payload)).2) t₁)
      (ht : Follows t₁ t₂) : Messages sched t (.newPayload payload tx) t₂
  | payload {payload : E.validator.ExecutionData} {tx : ℕ} {b : Block} {answer : EngineTree.Answer}
      {t₁ t₂ : EngineTree E} (hb : E.validator.ensureWellFormedPayload payload = .ok b)
      (hr : Receives sched.order (t.withBuffer (t.blockBuffer.removeWitness (E.validator.blockHash payload)).2)
        ((t.withBuffer (t.blockBuffer.removeWitness (E.validator.blockHash payload)).2).payloadCheck b) b
        (t.blockBuffer.removeWitness (E.validator.blockHash payload)).1 answer t₁)
      (ht : Follows t₁ t₂) : Messages sched t (.newPayload payload tx) t₂
  | forkchoice {state : ForkchoiceState} {attrs : Option E.validator.PayloadAttributes} {tx version : ℕ}
      {answer : EngineTree.UpdateAnswer} {t₁ t₂ t₃ : EngineTree E} (hu : Updates sched t state answer t₁)
      (htrack : Tracks t₁ t₂) (ht : Follows t₂ t₃) :
      Messages sched t (.forkchoiceUpdated state attrs tx version) t₃
  | transition : Messages sched t .transitionConfigurationExchanged t

/-- **The rule for a message.** A property of the tree that looks at neither the invalid header cache nor the tracker is
kept if it survives the witness of the payload being taken, the payload's block being received, and the update. -/
theorem Messages.keeps {P : EngineTree E → Prop} {sched : StateRoot.Schedule} {t t' : EngineTree E}
    {message : BeaconEngineMessage E} (hm : Messages sched t message t') (h : P t)
    (hmade : ∀ t target, P t → P (EngineTree.makeCanonical t target))
    (hforgets : ∀ t t', Forgets t t' → P t → P t') (htracks : ∀ t t', Tracks t t' → P t → P t')
    (htake : ∀ hash, P (t.withBuffer (t.blockBuffer.removeWitness hash).2))
    (hreceive : ∀ payload tx b check answer t₁, message = .newPayload payload tx →
      E.validator.ensureWellFormedPayload payload = .ok b →
      Receives sched.order (t.withBuffer (t.blockBuffer.removeWitness (E.validator.blockHash payload)).2) check b
        (t.blockBuffer.removeWitness (E.validator.blockHash payload)).1 answer t₁ → P t₁)
    (hupdate : ∀ state answer t₁, Updates sched t state answer t₁ → P t₁) : P t' := by
  have hfollows : ∀ {t₁ t₂ : EngineTree E}, Follows t₁ t₂ → P t₁ → P t₂ := by
    intro t₁ t₂ hf h₁
    exact hf.keeps (fun target => hmade t₁ target h₁) h₁
  cases hm with
  | malformed hf ht => exact hfollows ht (hforgets _ _ hf (htake _))
  | payload hb hr ht => exact hfollows ht (hreceive _ _ _ _ _ _ rfl hb hr)
  | forkchoice hu htrack ht => exact hfollows ht (htracks _ _ htrack (hupdate _ _ _ hu))
  | transition => exact h

theorem finishPayload_follows (e : ConsensusEngine E) (blockHash : B256) (hasWitness : Bool) (tx : ℕ)
    (answer : EngineTree.Answer) : Follows e.tree (e.finishPayload blockHash hasWitness tx answer).tree := by
  unfold finishPayload
  split
  · exact Follows.same
  · exact Follows.same
  · rename_i outcome event
    have hfollow := onTreeEvent_follows e event
    split
    · exact hfollow
    · simp only [send_tree]
      split_ifs
      · exact hfollow
      · exact hfollow

theorem finishPayload_tree (e : ConsensusEngine E) (blockHash : B256) (hasWitness : Bool) (tx : ℕ)
    (answer : EngineTree.Answer) :
    (e.finishPayload blockHash hasWitness tx answer).tree = (e.onMaybeTreeEvent (EngineTree.announced answer)).tree := by
  unfold finishPayload
  split
  · rfl
  · rfl
  · rename_i outcome event
    have hevent : EngineTree.announced (.ok ⟨outcome, some event⟩) = some event := rfl
    rw [hevent]
    split
    · rfl
    · simp only [send_tree]
      split_ifs <;> rfl

/-- the tree after a payload: what `on_new_payload` leaves, and perhaps a block made canonical -/
theorem onEngineMessage_payload (e : ConsensusEngine E) (sched : StateRoot.Schedule)
    (payload : E.validator.ExecutionData) (tx : ℕ) :
    Follows (e.tree.afterPayload sched payload).2 (e.onEngineMessage sched (.newPayload payload tx)).tree :=
  finishPayload_follows { e.note (.newPayload payload tx) with tree := (e.tree.afterPayload sched payload).2 } _ _ _ _

theorem finishForkchoice_follows (e : ConsensusEngine E) (state : ForkchoiceState) (tx : ℕ)
    (answer : EngineTree.UpdateAnswer) :
    ∃ t, Tracks e.tree t ∧ Follows t (e.finishForkchoice state tx answer).tree := by
  unfold finishForkchoice
  split
  · exact ⟨_, ⟨rfl, rfl, rfl, rfl, rfl⟩, Follows.same⟩
  · rename_i outcome event
    exact ⟨(e.tree.setLatest state outcome).emitEvent (.forkchoiceUpdated state outcome), ⟨rfl, rfl, rfl, rfl, rfl⟩,
      onMaybeTreeEvent_follows
        { e with tree := (e.tree.setLatest state outcome).emitEvent (.forkchoiceUpdated state outcome) } event⟩

theorem onEngineMessage_messages (e : ConsensusEngine E) (sched : StateRoot.Schedule)
    (message : BeaconEngineMessage E) : Messages sched e.tree message (e.onEngineMessage sched message).tree := by
  cases message with
  | newPayload payload tx =>
    have hfollow := onEngineMessage_payload e sched payload tx
    rcases EngineTree.onNewPayload_cases (e.tree.witnessTaken payload) sched payload (e.tree.takenWitness payload) with
      ⟨error, status, -, -, -, hf⟩ | ⟨b, hb, hr⟩
    · exact Messages.malformed hf hfollow
    · exact Messages.payload hb hr hfollow
  | forkchoiceUpdated state attrs tx version =>
    have hu := EngineTree.onForkchoiceUpdated_updates e.tree sched state attrs version
    obtain ⟨t, htrack, hfollow⟩ := finishForkchoice_follows
      { e.note (.forkchoiceUpdated state attrs tx version) with
        tree := (e.tree.onForkchoiceUpdated sched state attrs version).2 } state tx
      (e.tree.onForkchoiceUpdated sched state attrs version).1
    exact Messages.forkchoice hu htrack hfollow
  | transitionConfigurationExchanged => exact Messages.transition

/-- **A message** keeps a property of the buffer and the store, if payloads and updates do. -/
theorem onEngineMessage_framed {P : EngineTree E → Prop} (hk : Framed P) (e : ConsensusEngine E)
    (sched : StateRoot.Schedule) (message : BeaconEngineMessage E) (h : P e.tree)
    (hpayload : ∀ payload tx, message = .newPayload payload tx → P (e.tree.afterPayload sched payload).2)
    (hupdate : ∀ state answer t t', Updates sched e.tree state answer t → Tracks t t' → P t') :
    P (e.onEngineMessage sched message).tree := by
  have hfollows : ∀ {t t' : EngineTree E}, Follows t t' → P t → P t' :=
    fun hf ht => hf.keeps (fun target => hk.makeCanonical target ht) ht
  have hmessages := onEngineMessage_messages e sched message
  cases message with
  | newPayload payload tx => exact hfollows (onEngineMessage_payload e sched payload tx) (hpayload payload tx rfl)
  | forkchoiceUpdated state attrs tx version =>
    cases hmessages with
    | forkchoice hu htrack hf => exact hfollows hf (hupdate _ _ _ _ hu htrack)
  | transitionConfigurationExchanged => exact h

/-- the same where the property survives that buffer and store lose blocks: an update does no more -/
theorem onEngineMessage_shrinks {P : EngineTree E → Prop} (hk : Framed P)
    (hshrinks : ∀ {t t' : EngineTree E}, Shrinks t t' → P t → P t') (e : ConsensusEngine E)
    (sched : StateRoot.Schedule) (message : BeaconEngineMessage E) (h : P e.tree)
    (hpayload : ∀ payload tx, message = .newPayload payload tx → P (e.tree.afterPayload sched payload).2) :
    P (e.onEngineMessage sched message).tree := by
  refine onEngineMessage_framed hk e sched message h hpayload ?_
  intro state answer t t' hu htrack
  exact hshrinks htrack.shrinks (hshrinks hu.shrinks h)

/-! ## Requests -/

theorem onTreeEvent_grows (e : ConsensusEngine E) (event : TreeEvent) :
    Grows e.downloader (e.onTreeEvent event).downloader := by
  cases event with
  | treeAction action => exact Grows.rfl' _
  | download request =>
    cases request with
    | block hash =>
      have hblock := EngineDownloader.downloadFullBlock_grows e.downloader hash
      simp only [onTreeEvent]
      split_ifs
      · exact hblock.trans (EngineDownloader.downloadWitness_grows _ hash)
      · exact hblock
    | witness hash => exact EngineDownloader.downloadWitness_grows e.downloader hash
    | finalized hash => exact EngineDownloader.downloadFinalized_grows e.downloader hash

theorem onMaybeTreeEvent_grows (e : ConsensusEngine E) (event : Option TreeEvent) :
    Grows e.downloader (e.onMaybeTreeEvent event).downloader := by
  cases event with
  | none => exact Grows.rfl' _
  | some event => exact onTreeEvent_grows e event

@[simp] theorem send_downloader (e : ConsensusEngine E) (tx : ℕ) (r : Response) :
    (e.send tx r).downloader = e.downloader := rfl

@[simp] theorem releaseParked_downloader (e : ConsensusEngine E) (hash : B256)
    (result : Except InsertBlockFatalError PayloadStatus) : (e.releaseParked hash result).downloader = e.downloader := by
  unfold releaseParked
  split
  · split_ifs <;> rfl
  · rfl

theorem insertUnlocked_grows (e : ConsensusEngine E) (sched : StateRoot.Schedule) (hash : B256) :
    Grows e.downloader (e.insertUnlocked sched hash).downloader := by
  unfold insertUnlocked
  cases e.tree.blockBuffer.removeBlock hash with
  | mk taken buffer =>
    cases taken with
    | none => exact Grows.rfl' _
    | some x =>
      simp only [releaseParked_downloader]
      exact onMaybeTreeEvent_grows
        { e with tree := ((e.tree.withBuffer buffer).onDownloadedBlock sched x.1 x.2).2 } _

theorem finishPayload_grows (e : ConsensusEngine E) (blockHash : B256) (hasWitness : Bool) (tx : ℕ)
    (answer : EngineTree.Answer) : Grows e.downloader (e.finishPayload blockHash hasWitness tx answer).downloader := by
  unfold finishPayload
  split
  · exact Grows.rfl' _
  · exact Grows.rfl' _
  · rename_i outcome event
    have hevent := onTreeEvent_grows e event
    split
    · exact hevent
    · simp only [send_downloader]
      split_ifs
      · exact hevent
      · exact hevent.trans (onTreeEvent_grows _ _)

/-- a payload that waits in the buffer without a witness has it requested -/
theorem finishPayload_requests (e : ConsensusEngine E) (blockHash : B256) (tx : ℕ) {event : TreeEvent}
    (hevent : event = TreeEvent.downloadWitness blockHash ∨ ∃ hash, event = TreeEvent.downloadBlock hash) :
    (e.finishPayload blockHash false tx (.ok ⟨⟨.syncing, none⟩, some event⟩)).downloader.AwaitsWitness blockHash := by
  rcases hevent with rfl | ⟨hash, rfl⟩
  · exact EngineDownloader.downloadWitness_awaits _ _
  · exact EngineDownloader.downloadWitness_awaits _ _

/-- so does a payload that finds no witness in the buffer -/
theorem onEngineMessage_requests (e : ConsensusEngine E) (sched : StateRoot.Schedule)
    (payload : E.validator.ExecutionData) (tx : ℕ) {event : TreeEvent} (hnone : e.tree.takenWitness payload = none)
    (hanswer : (e.tree.afterPayload sched payload).1 = .ok ⟨⟨.syncing, none⟩, some event⟩)
    (hevent : event = TreeEvent.downloadWitness (E.validator.blockHash payload) ∨
      ∃ hash, event = TreeEvent.downloadBlock hash) :
    (e.onEngineMessage sched (.newPayload payload tx)).downloader.AwaitsWitness (E.validator.blockHash payload) := by
  have hfinish := finishPayload_requests
    { e.note (.newPayload payload tx) with tree := (e.tree.afterPayload sched payload).2 }
    (E.validator.blockHash payload) tx hevent
  have hflag : (e.tree.takenWitness payload).isSome = false := by rw [hnone]; rfl
  rw [← hanswer, ← hflag] at hfinish
  exact hfinish

/-- a message adds requests -/
theorem onEngineMessage_grows (e : ConsensusEngine E) (sched : StateRoot.Schedule) (message : BeaconEngineMessage E) :
    Grows e.downloader (e.onEngineMessage sched message).downloader := by
  cases message with
  | newPayload payload tx =>
    exact finishPayload_grows
      { e.note (.newPayload payload tx) with tree := (e.tree.afterPayload sched payload).2 } _ _ _ _
  | forkchoiceUpdated state attrs tx version =>
    simp only [onEngineMessage, onForkchoiceUpdated, finishForkchoice]
    split
    · exact Grows.rfl' _
    · rename_i outcome event _
      exact onMaybeTreeEvent_grows
        { e.note (.forkchoiceUpdated state attrs tx version) with
          tree := ((e.tree.onForkchoiceUpdated sched state attrs version).2.setLatest state outcome).emitEvent
            (.forkchoiceUpdated state outcome) } event
  | transitionConfigurationExchanged => exact Grows.rfl' _

/-- so does an outcome -/
theorem receiveOutcome_grows (e : ConsensusEngine E) (sched : StateRoot.Schedule) (data : DownloadData) :
    Grows e.downloader (e.receiveOutcome sched data).2.downloader := by
  have hreceived := receiveOutcome_received e sched data
  generalize e.receiveOutcome sched data = received at hreceived ⊢
  cases hreceived with
  | incomplete hmissing hne => exact (EngineDownloader.downloadBytecodes_awaits _ _).1
  | _ => exact Grows.rfl' _

/-! ## Events of a node -/

/-- the message that a pass handles -/
def handles (e : ConsensusEngine E) (io : Io) : Option (BeaconEngineMessage E) :=
  match e.delivered io with
  | some _ => none
  | none => if e.parkedPayload = none ∨ io.timeout = true then e.fromBeaconEngine.head? else none

theorem handles_mem {e : ConsensusEngine E} {io : Io} {message : BeaconEngineMessage E}
    (h : e.handles io = some message) : message ∈ e.fromBeaconEngine := by
  unfold handles at h
  split at h
  · cases h
  · split_ifs at h
    exact List.mem_of_mem_head? h

/-- a pass that hands out an outcome handles no message -/
theorem handles_delivered {e : ConsensusEngine E} {io : Io} {message : BeaconEngineMessage E}
    (h : e.handles io = some message) : e.delivered io = none := by
  unfold handles at h
  split at h
  · cases h
  · assumption

/-- the tree and the downloader, which is all that the handling of blocks looks at -/
def core (e : ConsensusEngine E) : EngineTree E × EngineDownloader := (e.tree, e.downloader)

/-- what a pass does with the messages, once a parked payload is out of the way -/
theorem pollMessage_cases (e : ConsensusEngine E) (sched : StateRoot.Schedule) :
    (∃ message, ∃ e' : ConsensusEngine E, e.fromBeaconEngine.head? = some message ∧ e'.core = e.core ∧
        (e.pollMessage sched).2 = e'.onEngineMessage sched message) ∨
      (e.pollMessage sched).2.core = e.core := by
  unfold pollMessage
  cases hq : e.fromBeaconEngine with
  | nil => exact Or.inr rfl
  | cons message messages => exact Or.inl ⟨message, { e with fromBeaconEngine := messages }, rfl, rfl, rfl⟩

/-- **One pass.** It handles the outcome that the downloader hands out, or else a message, or nothing. -/
theorem pollOnce_cases (e : ConsensusEngine E) (io : Io) :
    (∃ data, e.delivered io = some data ∧
        (e.pollOnce io).2 = ((e.afterPoll io).onDownloadOutcome io.sched data).2 ∧
        ((∀ fatal, (e.pollOnce io).1 ≠ .ready fatal) →
          ((e.afterPoll io).onDownloadOutcome io.sched data).1 = .ok ())) ∨
      (e.delivered io = none ∧
        ((∃ message, ∃ e' : ConsensusEngine E, e.handles io = some message ∧ e'.core = (e.afterPoll io).core ∧
            (e.pollOnce io).2 = e'.onEngineMessage io.sched message) ∨
          (e.pollOnce io).2.core = (e.afterPoll io).core)) := by
  unfold pollOnce handles
  cases hd : e.delivered io with
  | some data =>
    refine Or.inl ⟨data, rfl, ?_⟩
    simp only
    cases (e.afterPoll io).onDownloadOutcome io.sched data with
    | mk result e' =>
      cases result with
      | error fatal => exact ⟨rfl, fun hlive => absurd rfl (hlive fatal)⟩
      | ok _ => exact ⟨rfl, fun _ => rfl⟩
  | none =>
    refine Or.inr ⟨rfl, ?_⟩
    simp only
    unfold pollParked
    have hparked : (e.afterPoll io).parkedPayload = e.parkedPayload := rfl
    rw [hparked]
    cases e.parkedPayload with
    | none =>
      rcases pollMessage_cases (e.afterPoll io) io.sched with ⟨message, e', hhead, hcore, heq⟩ | hcore
      · exact Or.inl ⟨message, e', by rw [if_pos (Or.inl rfl)]; exact hhead, hcore, heq⟩
      · exact Or.inr hcore
    | some parked =>
      simp only
      by_cases htimeout : io.timeout = true
      · rw [if_pos htimeout, if_pos (Or.inr htimeout)]
        rcases pollMessage_cases ((e.afterPoll io).onTimeout parked) io.sched with ⟨message, e', hhead, hcore, heq⟩ | hcore
        · exact Or.inl ⟨message, e', hhead, hcore, heq⟩
        · exact Or.inr hcore
      · rw [if_neg htimeout]
        exact Or.inr rfl

/-! ## Properties of the tree -/

/-- the hashes that the loop of `on_download_outcome` tries -/
def toTry (result : Except InsertBlockFatalError (Finset B256)) : Set B256 :=
  {k | ∃ unlocked, result = .ok unlocked ∧ k ∈ unlocked}

theorem toTry_singleton (k : B256) : toTry (.ok {k}) = {k} := by
  ext x
  constructor
  · rintro ⟨unlocked, hok, hx⟩
    cases hok
    exact Finset.mem_singleton.1 hx
  · rintro rfl
    exact ⟨{x}, rfl, Finset.mem_singleton_self x⟩

/-- **The rule for a download outcome** that is no fatal error. `P U` may look at the hashes `U` that are still to be
tried: it holds after the receipt, and trying one of them keeps it. -/
theorem onDownloadOutcome_ok {P : Set B256 → ConsensusEngine E → Prop} (e : ConsensusEngine E)
    (sched : StateRoot.Schedule) (data : DownloadData)
    (hreceive : ∀ unlocked, (e.receiveOutcome sched data).1 = .ok unlocked →
      P {k | k ∈ unlocked} (e.receiveOutcome sched data).2)
    (hunlock : ∀ (e : ConsensusEngine E) hash U, P (insert hash U) e → P U (e.insertUnlocked sched hash))
    (hok : (e.onDownloadOutcome sched data).1 = .ok ()) : P ∅ (e.onDownloadOutcome sched data).2 := by
  unfold onDownloadOutcome at hok ⊢
  cases hr : e.receiveOutcome sched data with
  | mk result e₁ =>
    rw [hr] at hreceive hok
    cases result with
    | error fatal => cases hok
    | ok unlocked =>
      have hstart := hreceive unlocked rfl
      have hlist : {k | k ∈ unlocked} = {k | k ∈ sched.order.list unlocked} := by
        ext k
        exact (sched.order.mem unlocked k).symm
      rw [hlist] at hstart
      simp only at hstart ⊢
      unfold insertAllUnlocked
      clear hlist hr hreceive hok
      generalize sched.order.list unlocked = hashes at hstart ⊢
      induction hashes generalizing e₁ with
      | nil => simpa using hstart
      | cons hash hashes ih =>
        apply ih
        apply hunlock
        have hcons : {k | k ∈ hash :: hashes} = insert hash {k | k ∈ hashes} := by
          ext k
          exact List.mem_cons
        rw [← hcons]
        exact hstart

/-- the rule for any outcome: a fatal error ends it with the receipt -/
theorem onDownloadOutcome_keeps {P : Set B256 → ConsensusEngine E → Prop} (e : ConsensusEngine E)
    (sched : StateRoot.Schedule) (data : DownloadData)
    (hreceive : P (toTry (e.receiveOutcome sched data).1) (e.receiveOutcome sched data).2)
    (hunlock : ∀ (e : ConsensusEngine E) hash U, P (insert hash U) e → P U (e.insertUnlocked sched hash)) :
    P ∅ (e.onDownloadOutcome sched data).2 := by
  cases hr : (e.receiveOutcome sched data).1 with
  | error fatal =>
    have hnone : toTry (.error fatal) = ∅ := by
      apply Set.eq_empty_of_forall_notMem
      rintro k ⟨unlocked, hok, -⟩
      cases hok
    have hsame : (e.onDownloadOutcome sched data).2 = (e.receiveOutcome sched data).2 := by
      unfold onDownloadOutcome
      cases hreceived : e.receiveOutcome sched data with
      | mk result e₁ =>
        rw [hreceived] at hr
        cases hr
        rfl
    rw [hr, hnone] at hreceive
    rw [hsame]
    exact hreceive
  | ok unlocked =>
    refine onDownloadOutcome_ok e sched data ?_ hunlock ?_
    · intro unlocked' hok
      have hset : toTry (.ok unlocked') = {k | k ∈ unlocked'} := by
        ext k
        constructor
        · rintro ⟨_, hsome, hk⟩
          cases hsome
          exact hk
        · exact fun hk => ⟨unlocked', rfl, hk⟩
      rw [← hset, ← hok]
      exact hreceive
    · unfold onDownloadOutcome
      cases hreceived : e.receiveOutcome sched data with
      | mk result e₁ =>
        rw [hreceived] at hr
        cases hr
        rfl

/-- the rule for a property of the tree -/
theorem onDownloadOutcome_tree {P : Set B256 → EngineTree E → Prop} (e : ConsensusEngine E) (sched : StateRoot.Schedule)
    (data : DownloadData) (hreceive : P (toTry (e.receiveOutcome sched data).1) (e.receiveOutcome sched data).2.tree)
    (hunlock : ∀ (e : ConsensusEngine E) hash U, P (insert hash U) e.tree → P U (e.insertUnlocked sched hash).tree) :
    P ∅ (e.onDownloadOutcome sched data).2.tree :=
  onDownloadOutcome_keeps (P := fun U e => P U e.tree) e sched data hreceive hunlock

end ConsensusEngine

namespace Node

open ConsensusEngine (Messages)

variable {E : Env}

/-- **One pass of a node.** A node that has terminated stays as it is. A live one handles the outcome that the downloader
hands out, or else a message, or nothing. -/
theorem step_poll (n : Node E) (io : ConsensusEngine.Io) :
    (n.terminated ≠ none ∧ n.step (.poll io) = n) ∨
      (∃ data, n.engine.delivered io = some data ∧
        (n.step (.poll io)).engine = ((n.engine.afterPoll io).onDownloadOutcome io.sched data).2 ∧
        ((n.step (.poll io)).terminated = none →
          ((n.engine.afterPoll io).onDownloadOutcome io.sched data).1 = .ok ())) ∨
      (n.engine.delivered io = none ∧
        ((∃ message, ∃ e : ConsensusEngine E, n.engine.handles io = some message ∧
            e.core = (n.engine.afterPoll io).core ∧
            (n.step (.poll io)).engine = e.onEngineMessage io.sched message) ∨
          (n.step (.poll io)).engine.core = (n.engine.afterPoll io).core)) := by
  unfold step
  cases hterminated : n.terminated with
  | some fatal => exact Or.inl ⟨by simp, rfl⟩
  | none =>
    have hcases := ConsensusEngine.pollOnce_cases n.engine io
    simp only
    cases hp : n.engine.pollOnce io with
    | mk polled engine =>
      rw [hp] at hcases
      refine Or.inr ?_
      rcases hcases with ⟨data, hdata, heq, hok⟩ | hcases
      · refine Or.inl ⟨data, hdata, ?_, ?_⟩
        · cases polled <;> exact heq
        · intro hlive
          apply hok
          rintro fatal rfl
          cases hlive
      · refine Or.inr ?_
        cases polled <;> exact hcases

/-- **The rule for one event of a node.** A property of the tree and the downloader is kept if every download outcome
and every message keeps it, and a pass that handles neither. -/
theorem step_core {P : EngineTree E × EngineDownloader → Prop} (n : Node E) (event : NodeEvent E)
    (h : P n.engine.core)
    (hidle : ∀ io, event = .poll io → n.engine.delivered io = none → P (n.engine.afterPoll io).core)
    (hmessage : ∀ io (e : ConsensusEngine E) message, event = .poll io → n.engine.handles io = some message →
      e.core = (n.engine.afterPoll io).core → P (e.onEngineMessage io.sched message).core)
    (houtcome : ∀ io data, event = .poll io → n.engine.delivered io = some data →
      P ((n.engine.afterPoll io).onDownloadOutcome io.sched data).2.core) :
    P (n.step event).engine.core := by
  cases event with
  | arrive message => exact h
  | poll io =>
    rcases step_poll n io with ⟨-, heq⟩ | ⟨data, hdata, heq, -⟩ | ⟨hnone, ⟨message, e, hhandles, hcore, heq⟩ | hcore⟩
    · rw [heq]
      exact h
    · rw [heq]
      exact houtcome io data rfl hdata
    · rw [heq]
      exact hmessage io e message rfl hhandles hcore
    · rw [hcore]
      exact hidle io rfl hnone

/-- the rule for a property that need not survive a fatal error -/
theorem step_live {P : EngineTree E × EngineDownloader → Prop} (n : Node E) (event : NodeEvent E)
    (h : n.terminated = none → P n.engine.core)
    (hidle : ∀ io, event = .poll io → n.engine.delivered io = none → P (n.engine.afterPoll io).core)
    (hmessage : ∀ io (e : ConsensusEngine E) message, event = .poll io → n.engine.handles io = some message →
      e.core = (n.engine.afterPoll io).core → P (e.onEngineMessage io.sched message).core)
    (houtcome : ∀ io data, event = .poll io → n.engine.delivered io = some data →
      ((n.engine.afterPoll io).onDownloadOutcome io.sched data).1 = .ok () →
      P ((n.engine.afterPoll io).onDownloadOutcome io.sched data).2.core)
    (hlive : (n.step event).terminated = none) : P (n.step event).engine.core := by
  cases event with
  | arrive message => exact h hlive
  | poll io =>
    rcases step_poll n io with ⟨hdead, heq⟩ | ⟨data, hdata, heq, hok⟩ |
      ⟨hnone, ⟨message, e, hhandles, hcore, heq⟩ | hcore⟩
    · rw [heq] at hlive
      exact absurd hlive hdead
    · rw [heq]
      exact houtcome io data rfl hdata (hok hlive)
    · rw [heq]
      exact hmessage io e message rfl hhandles hcore
    · rw [hcore]
      exact hidle io rfl hnone

/-- a node that is live after an event was live before -/
theorem live_before {n : Node E} {event : NodeEvent E} (hlive : (n.step event).terminated = none) :
    n.terminated = none := by
  cases event with
  | arrive message => exact hlive
  | poll io =>
    unfold step at hlive
    cases hterminated : n.terminated with
    | none => rfl
    | some fatal =>
      rw [hterminated] at hlive
      exact absurd (hterminated.symm.trans hlive) (by simp)

/-- the rule for a property of the tree, if it does not depend on how the database fails -/
theorem step_tree {P : EngineTree E → Prop} (n : Node E) (event : NodeEvent E) (h : P n.engine.tree)
    (hfaults : ∀ t readError writeError, P t → P (EngineTree.withFaults t readError writeError))
    (hmessage : ∀ sched t t' message, message ∈ n.engine.fromBeaconEngine → P t → Messages sched t message t' → P t')
    (houtcome : ∀ io data, event = .poll io → n.engine.delivered io = some data →
      P ((n.engine.afterPoll io).onDownloadOutcome io.sched data).2.tree) :
    P (n.step event).engine.tree := by
  have hafter : ∀ io, P (n.engine.afterPoll io).tree := fun io => hfaults _ _ _ h
  refine step_core (P := fun x => P x.1) n event h (fun io _ _ => hafter io) ?_ houtcome
  intro io e message _ hhandles hcore
  have htree : e.tree = (n.engine.afterPoll io).tree := congrArg Prod.fst hcore
  have he : P e.tree := htree ▸ hafter io
  exact hmessage io.sched _ _ message (ConsensusEngine.handles_mem hhandles) he
    (ConsensusEngine.onEngineMessage_messages e io.sched message)

end Node

end Ress
