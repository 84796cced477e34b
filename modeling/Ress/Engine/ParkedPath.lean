/-
A payload without its witness, and the same payload with it.

`direct` handles a payload whose witness is in the buffer. `parked` handles it without the witness, and then the witness
as the next download outcome. In the second case the block is handled by `on_downloaded_block`, which looks up the
block's own hash in the invalid header cache where `on_new_payload` looks up the parent's. And the block has been in the
buffer meanwhile, where it may have evicted another one. Apart from that both ways come to the same (`parked_agrees`).
-/
import Ress.Engine.Connectable
import Ress.Tree.SameStore

namespace Ress

namespace BlockBuffer

variable {β : BlockBuffer} {hash : B256} {w : ExecutionWitness}

/-- a witness that is taken at once leaves the buffer as if it had been taken without it -/
theorem insertWitness_removeWitness (hm : β.missing hash = ∅) :
    (β.insertWitness hash w ∅).removeWitness hash = (some w, (β.removeWitness hash).2) := by
  have hm' : (β.insertWitness hash w ∅).missing hash = ∅ := hm
  have hdel : (β.witnesses.set hash w).del hash = β.witnesses.del hash := by
    ext1 k
    by_cases hk : k = hash
    · rw [hk, FMap.get_del_self, FMap.get_del_self]
    · rw [FMap.get_del_ne _ hk, FMap.get_del_ne _ hk, FMap.get_set_ne _ _ hk]
  simp only [removeWitness]
  rw [if_pos hm', if_pos hm]
  simp only [insertWitness, FMap.get_set_self, hdel, ne_eq, not_true_eq_false, if_false]

/-- taking a witness leaves nothing missing where nothing was -/
theorem missing_removeWitness (hm : β.missing hash = ∅) : (β.removeWitness hash).2.missing hash = ∅ := by
  simp only [removeWitness]
  rw [if_pos hm]
  simp [missing]

/-- the buffer after a block has been buffered, its witness has arrived, and both have been taken out -/
def passedThrough (β : BlockBuffer) (b : Block) (w : ExecutionWitness) : BlockBuffer :=
  (((β.insertBlock b).insertWitness b.hash w ∅).removeBlock b.hash).2

theorem passesThrough (b : Block) (w : ExecutionWitness) (hm : β.missing b.hash = ∅) :
    ((β.insertBlock b).insertWitness b.hash w ∅).removeBlock b.hash = (some (b, w), β.passedThrough b w) ∧
      (β.passedThrough b w).blocks.get b.hash = none := by
  have hblock : ((β.insertBlock b).insertWitness b.hash w ∅).blocks.get b.hash = some b := (insertBlock_self β b).1
  have hwitness : ((β.insertBlock b).insertWitness b.hash w ∅).witnesses.get b.hash = some w := FMap.get_set_self _ _ _
  have hmissing : ((β.insertBlock b).insertWitness b.hash w ∅).missing b.hash = ∅ :=
    (insertBlock_frees β b).2.missing.trans hm
  rcases removeBlock_cases ((β.insertBlock b).insertWitness b.hash w ∅) b.hash with
    ⟨hnot, -⟩ | ⟨b', w', hb', hw', -, hsome, hgone, -⟩
  · exact absurd ⟨⟨b, hblock⟩, ⟨w, hwitness⟩, hmissing⟩ hnot
  · cases hblock.symm.trans hb'
    cases hwitness.symm.trans hw'
    exact ⟨Prod.ext hsome rfl, hgone⟩

end BlockBuffer

namespace EngineTree

variable {E : Env} {t : EngineTree E} {sched : StateRoot.Schedule} {payload : E.validator.ExecutionData} {b : Block}
  {mw : Option ExecutionWitness}

/-- a payload asks for a witness only when its insertion ends without one -/
theorem onNewPayload_asks (hb : E.validator.ensureWellFormedPayload payload = .ok b) {status : PayloadStatus}
    {hash : B256} (h : (t.onNewPayload sched payload mw).1 = .ok ⟨status, some (.downloadWitness hash)⟩) :
    t.lookupInvalid (t.payloadCheck b) = none ∧ (t.insertBlock sched b mw).1 = .ok (.inserted .noWitness) := by
  simp only [onNewPayload, hb] at h
  rw [show (if t.lowestBufferedAncestorOr b.hash = b.hash then b.parentHash
    else t.lowestBufferedAncestorOr b.hash) = t.payloadCheck b from rfl] at h
  cases hn : t.lookupInvalid (t.payloadCheck b) with
  | some header =>
    rw [checkInvalid_found b.hash hn] at h
    cases h
  | none =>
    rw [checkInvalid_notFound b.hash hn] at h
    simp only [insertBlock_afterLookup] at h
    refine ⟨rfl, ?_⟩
    cases hr : (t.insertBlock sched b mw).1 with
    | error kind =>
      rw [hr] at h
      simp only at h
      cases hk : (t.afterInsertion sched (t.payloadCheck b) b mw).onInsertBlockError b kind with
      | mk answer t₂ =>
        rw [hk] at h
        cases answer <;> cases h
    | ok result =>
      rw [hr] at h
      cases hk : (t.afterInsertion sched (t.payloadCheck b) b mw).tryConnectBufferedBlocks sched b.hash with
      | mk answer t₂ =>
        cases result with
        | alreadySeen =>
          simp only [hk] at h
          cases answer with
          | error fatal => cases h
          | ok _ =>
            simp only [Except.ok.injEq, TreeOutcome.mk.injEq] at h
            split_ifs at h
            · cases h.2
            · cases h.2
        | inserted status =>
          cases status with
          | valid =>
            simp only [hk] at h
            cases answer with
            | error fatal => cases h
            | ok _ =>
              simp only [Except.ok.injEq, TreeOutcome.mk.injEq] at h
              split_ifs at h
              · cases h.2
              · cases h.2
          | disconnected head missing => cases h
          | noWitness => rfl

/-- and then it leaves the block in the buffer -/
theorem onNewPayload_noWitness (hb : E.validator.ensureWellFormedPayload payload = .ok b)
    (hn : t.lookupInvalid (t.payloadCheck b) = none)
    (hr : (t.insertBlock sched b mw).1 = .ok (.inserted .noWitness)) :
    t.onNewPayload sched payload mw =
      (.ok ⟨⟨.syncing, none⟩, some (.downloadWitness b.hash)⟩, t.afterInsertion sched (t.payloadCheck b) b mw) := by
  simp only [onNewPayload, hb]
  rw [show (if t.lowestBufferedAncestorOr b.hash = b.hash then b.parentHash
    else t.lowestBufferedAncestorOr b.hash) = t.payloadCheck b from rfl]
  rw [checkInvalid_notFound b.hash hn]
  simp only [insertBlock_afterLookup, hr]

/-- a payload that is not rejected on account of an ancestor is not answered so -/
theorem onNewPayload_notLinked (hb : E.validator.ensureWellFormedPayload payload = .ok b)
    (hn : t.lookupInvalid (t.payloadCheck b) = none) {status : PayloadStatus}
    (hstatus : status.status = .invalid .linksToRejectedPayload) :
    (t.onNewPayload sched payload mw).1.map TreeOutcome.outcome ≠ .ok status := by
  have hj := onNewPayload_judges t sched mw hb
  generalize (t.onNewPayload sched payload mw).1 = answer at hj ⊢
  generalize (t.onNewPayload sched payload mw).2 = t₁ at hj
  intro heq
  cases hj with
  | rejected header hh => cases hn.symm.trans hh
  | failed kind text _ _ _ =>
    cases heq
    cases hstatus
  | passed _ _ hvalid =>
    cases answer with
    | error fatal => cases heq
    | ok outcome =>
      cases heq
      exact hvalid outcome rfl ⟨_, hstatus⟩

end EngineTree

namespace ConsensusEngine

open EngineTree (announced SameStore Decides)

variable {E : Env} {e e' : ConsensusEngine E}

/-- the engine with a complete witness in its buffer -/
def withWitness (e : ConsensusEngine E) (blockHash : B256) (witness : ExecutionWitness) : ConsensusEngine E :=
  { e with tree := e.tree.withBuffer (e.tree.blockBuffer.insertWitness blockHash witness ∅) }

/-- the witness is in the buffer when the payload arrives -/
def direct (e : ConsensusEngine E) (sched : StateRoot.Schedule) (payload : E.validator.ExecutionData) (tx : ℕ)
    (witness : ExecutionWitness) : ConsensusEngine E :=
  (e.withWitness (E.validator.blockHash payload) witness).onEngineMessage sched (.newPayload payload tx)

/-- the payload arrives first, and its witness right after it -/
def parked (e : ConsensusEngine E) (sched₁ sched₂ : StateRoot.Schedule) (payload : E.validator.ExecutionData) (tx : ℕ)
    (witness : ExecutionWitness) : ConsensusEngine E :=
  ((e.onEngineMessage sched₁ (.newPayload payload tx)).onDownloadOutcome sched₂
    (.witness (E.validator.blockHash payload) witness)).2

/-- the consensus client has got the same responses, and the block is validated and canonical alike -/
structure SameOutcome (hash : B256) (e e' : ConsensusEngine E) : Prop where
  responses : e'.responses = e.responses
  stored : e'.tree.Stored hash ↔ e.tree.Stored hash
  canonical : e'.tree.provider.isHashCanonical hash = e.tree.provider.isHashCanonical hash

/-- when the payload has been looked up, nothing is found for its own hash -/
def OwnHashClear (e : ConsensusEngine E) (payload : E.validator.ExecutionData) (b : Block) : Prop :=
  let t := e.tree.witnessTaken payload
  (t.afterLookup (t.payloadCheck b)).lookupInvalid b.hash = none

/-- the block's buffered descendants that are ready are the same when it has passed through the buffer -/
def KeepsDescendants (e : ConsensusEngine E) (ord : Enumeration B256) (payload : E.validator.ExecutionData) (b : Block)
    (witness : ExecutionWitness) : Prop :=
  let buffer := (e.tree.witnessTaken payload).blockBuffer
  (BlockBuffer.removeBlockWithChildren ord (buffer.passedThrough b witness) b.hash).1 =
    (BlockBuffer.removeBlockWithChildren ord buffer b.hash).1

/-- a parked payload has asked for a witness -/
theorem finishPayload_parks {blockHash : B256} {hasWitness : Bool} {tx : ℕ} {answer : EngineTree.Answer}
    {parked : ParkedPayload} (hidle : e.parkedPayload = none)
    (h : (e.finishPayload blockHash hasWitness tx answer).parkedPayload = some parked) :
    ∃ status, answer = .ok ⟨status, some (.downloadWitness parked.blockHash)⟩ := by
  unfold finishPayload at h
  split at h
  · cases hidle.symm.trans h
  · cases hidle.symm.trans h
  · rename_i outcome event
    have hquiet := onTreeEvent_quiet e event
    split at h
    · rename_i parkedHash hdownload _
      simp only [Option.some.injEq] at h
      subst h
      unfold TreeEvent.asWitnessDownload at hdownload
      split at hdownload
      · cases hdownload
        exact ⟨outcome, rfl⟩
      · cases hdownload
    · simp only at h
      split_ifs at h
      · cases hidle.symm.trans (hquiet.parkedPayload.symm.trans h)
      · cases hidle.symm.trans ((hquiet.trans (onTreeEvent_quiet _ _)).parkedPayload.symm.trans h)

/-- a payload is answered or it is not -/
theorem finishPayload_responses (e : ConsensusEngine E) (blockHash : B256) (hasWitness : Bool) (tx : ℕ)
    (answer : EngineTree.Answer) :
    (e.finishPayload blockHash hasWitness tx answer).responses = e.responses ∨
      (e.finishPayload blockHash hasWitness tx answer).responses =
        e.responses ++ [(tx, .payload (answer.map TreeOutcome.outcome))] := by
  unfold finishPayload
  split
  · exact Or.inr rfl
  · exact Or.inr rfl
  · rename_i outcome event
    have hquiet := onTreeEvent_quiet e event
    split
    · exact Or.inl hquiet.responses
    · refine Or.inr ?_
      simp only
      split_ifs
      · exact congrArg (· ++ _) hquiet.responses
      · exact congrArg (· ++ _) (hquiet.trans (onTreeEvent_quiet _ _)).responses

/-- an answer that asks for nothing to be downloaded is sent -/
theorem finishPayload_decides {answer : EngineTree.Answer} (hd : Decides answer) (blockHash : B256) (tx : ℕ) :
    (e.finishPayload blockHash true tx answer).responses =
      e.responses ++ [(tx, .payload (answer.map TreeOutcome.outcome))] := by
  cases answer with
  | error fatal => rfl
  | ok outcome =>
    obtain ⟨status, event⟩ := outcome
    cases event with
    | none => rfl
    | some event =>
      obtain ⟨target, rfl⟩ := hd event rfl
      rfl

theorem onEngineMessage_newPayload (e : ConsensusEngine E) (sched : StateRoot.Schedule)
    (payload : E.validator.ExecutionData) (tx : ℕ) :
    e.onEngineMessage sched (.newPayload payload tx) =
      { e.note (.newPayload payload tx) with tree := (e.tree.afterPayload sched payload).2 }.finishPayload
        (E.validator.blockHash payload) (e.tree.takenWitness payload).isSome tx
        (e.tree.afterPayload sched payload).1 := rfl

/-- a payload with block `b` has been parked: `t` is the tree without its witness -/
structure Parks (t : EngineTree E) (b : Block) (e e' : ConsensusEngine E) : Prop where
  clear : t.lookupInvalid (t.payloadCheck b) = none
  notStored : ¬ t.Stored b.hash
  parentStored : t.Stored b.parentHash
  store : SameStore t e'.tree
  blockBuffer : e'.tree.blockBuffer = t.blockBuffer.insertBlock b
  invalidHeaders : e'.tree.invalidHeaders = (t.afterLookup (t.payloadCheck b)).invalidHeaders
  responses : e'.responses = e.responses

theorem onEngineMessage_parks {sched : StateRoot.Schedule} {payload : E.validator.ExecutionData} {b : Block} {tx : ℕ}
    (hb : E.validator.ensureWellFormedPayload payload = .ok b) (hidle : e.parkedPayload = none)
    (h : (e.onEngineMessage sched (.newPayload payload tx)).parkedPayload = some ⟨b.hash, tx⟩) :
    Parks (e.tree.witnessTaken payload) b e (e.onEngineMessage sched (.newPayload payload tx)) := by
  rw [onEngineMessage_newPayload] at h ⊢
  have hasked : ∃ status, (e.tree.afterPayload sched payload).1 = .ok ⟨status, some (.downloadWitness b.hash)⟩ :=
    finishPayload_parks
      (e := { e.note (.newPayload payload tx) with tree := (e.tree.afterPayload sched payload).2 }) hidle h
  obtain ⟨status, hanswer⟩ := hasked
  simp only [EngineTree.afterPayload] at hanswer ⊢
  generalize e.tree.witnessTaken payload = t at hanswer ⊢
  generalize e.tree.takenWitness payload = mw at hanswer ⊢
  obtain ⟨hn, hr⟩ := EngineTree.onNewPayload_asks hb hanswer
  rw [EngineTree.onNewPayload_noWitness hb hn hr]
  simp only [EngineTree.afterInsertion]
  have hi := EngineTree.insertBlock_inserts t sched b mw
  rw [hr] at hi
  generalize (t.insertBlock sched b mw).2 = t₁ at hi ⊢
  cases hi with
  | noWitness _ hns hparent =>
    obtain ⟨p, hget, -⟩ := hparent
    exact ⟨hn, hns, ⟨p, hget⟩, ⟨rfl, rfl, rfl⟩, rfl, rfl, rfl⟩

/-- the payload with its witness in the buffer -/
theorem direct_eq (e : ConsensusEngine E) (sched : StateRoot.Schedule) (payload : E.validator.ExecutionData) (tx : ℕ)
    (w : ExecutionWitness) (hm : e.tree.blockBuffer.missing (E.validator.blockHash payload) = ∅) :
    let result := (e.tree.witnessTaken payload).onNewPayload sched payload (some w)
    e.direct sched payload tx w =
      { (e.withWitness (E.validator.blockHash payload) w).note (.newPayload payload tx) with
        tree := result.2 }.finishPayload (E.validator.blockHash payload) true tx result.1 := by
  have htaken := BlockBuffer.insertWitness_removeWitness (w := w) hm
  simp only [direct, onEngineMessage, onNewPayload]
  simp only [note, withWitness, EngineTree.withBuffer, htaken]
  rfl

/-- the witness of a parked payload arrives -/
theorem onDownloadOutcome_witness {sched : StateRoot.Schedule} {b : Block} {w : ExecutionWitness}
    (hcodes : e.tree.provider.missingCodeHashes (w.bytecodeHashes E.codec) = .ok ∅) {buffer : BlockBuffer}
    (hremove : (e.tree.blockBuffer.insertWitness b.hash w ∅).removeBlock b.hash = (some (b, w), buffer)) :
    let result := (e.tree.withBuffer buffer).onDownloadedBlock sched b w
    (e.onDownloadOutcome sched (.witness b.hash w)).2 =
      ({ e with tree := result.2 }.onMaybeTreeEvent (announced result.1)).releaseParked b.hash
        (result.1.map TreeOutcome.outcome) := by
  simp only [onDownloadOutcome, receiveOutcome, hcodes, if_true, insertAllUnlocked, Enumeration.list_singleton,
    List.foldl_cons, List.foldl_nil, insertUnlocked, EngineTree.withBuffer, hremove]
  rfl

/-- the tree after an answer that decides -/
theorem onMaybeTreeEvent_sameStore (e e' : ConsensusEngine E) {event : Option TreeEvent} (h : SameStore e.tree e'.tree)
    (hevent : ∀ event', event = some event' → ∃ target, event' = .makeCanonical target) :
    SameStore (e.onMaybeTreeEvent event).tree (e'.onMaybeTreeEvent event).tree := by
  cases event with
  | none => exact h
  | some event =>
    obtain ⟨target, rfl⟩ := hevent event rfl
    exact h.makeCanonical target

theorem releaseParked_responses {hash : B256} {tx : ℕ} (hparked : e.parkedPayload = some ⟨hash, tx⟩)
    (result : Except InsertBlockFatalError PayloadStatus) :
    (e.releaseParked hash result).responses = e.responses ++ [(tx, .payload result)] := by
  unfold releaseParked
  rw [hparked]
  simp only [if_true, send]

/-- the two ways answer alike, once the trees and the answers are the same -/
theorem releases {hash : B256} {tx : ℕ} {answer : EngineTree.Answer} {t t' : EngineTree E}
    (hparked : e'.parkedPayload = some ⟨hash, tx⟩) (hresponses : e'.responses = e.responses) (hsame : SameStore t t')
    (hdecides : Decides answer) :
    SameOutcome hash ({ e with tree := t }.finishPayload hash true tx answer)
      (({ e' with tree := t' }.onMaybeTreeEvent (announced answer)).releaseParked hash
        (answer.map TreeOutcome.outcome)) := by
  have hquiet := onMaybeTreeEvent_quiet { e' with tree := t' } (announced answer)
  have hstore := onMaybeTreeEvent_sameStore { e with tree := t } { e' with tree := t' } hsame hdecides
  rw [← finishPayload_tree _ hash true tx answer] at hstore
  refine ⟨?_, ?_, ?_⟩
  · rw [finishPayload_decides hdecides]
    rw [releaseParked_responses (hquiet.parkedPayload.trans hparked), hquiet.responses]
    exact congrArg (· ++ _) hresponses
  · rw [releaseParked_tree]
    simp only [EngineTree.Stored, hstore.provider]
  · rw [releaseParked_tree, hstore.provider]

/-- a block that is rejected when its witness arrives gets another answer than the payload with the witness -/
theorem releases_rejected {hash : B256} {tx : ℕ} {answer : EngineTree.Answer} {status : PayloadStatus}
    {t t' : EngineTree E} (hparked : e'.parkedPayload = some ⟨hash, tx⟩) (hresponses : e'.responses = e.responses)
    (hne : answer.map TreeOutcome.outcome ≠ .ok status) :
    ¬ SameOutcome hash ({ e with tree := t }.finishPayload hash true tx answer)
      (({ e' with tree := t' }.onMaybeTreeEvent (announced (.ok (TreeOutcome.new status)))).releaseParked hash
        (.ok status)) := by
  intro h
  have hsent := h.responses
  have hrelease := releaseParked_responses (e := { e' with tree := t' }) hparked (.ok status)
  have heq := hrelease.symm.trans hsent
  simp only [hresponses] at heq
  rcases finishPayload_responses { e with tree := t } hash true tx answer with hsame | hone
  · rw [hsame] at heq
    simp at heq
  · rw [hone] at heq
    simp only [List.append_cancel_left_eq, List.cons.injEq, Prod.mk.injEq, Response.payload.injEq, and_true,
      true_and] at heq
    exact hne heq.symm

/-- **The parked path.** For every engine that has nothing parked: a payload that is parked for a witness with no
missing bytecodes comes to the same as the payload with this witness in the buffer, if nothing is found for its own hash
in the invalid header cache and its buffered descendants are the same when it has passed through the buffer. If
something is found the answers differ. -/
theorem parked_agrees (e : ConsensusEngine E) (sched₁ sched₂ : StateRoot.Schedule) (payload : E.validator.ExecutionData)
    (b : Block) (tx : ℕ) (w : ExecutionWitness) (hb : E.validator.ensureWellFormedPayload payload = .ok b)
    (hidle : e.parkedPayload = none) (hm : e.tree.blockBuffer.missing b.hash = ∅)
    (hcodes : e.tree.provider.missingCodeHashes (w.bytecodeHashes E.codec) = .ok ∅)
    (hparks : (e.onEngineMessage sched₁ (.newPayload payload tx)).parkedPayload = some ⟨b.hash, tx⟩) :
    (e.OwnHashClear payload b → e.KeepsDescendants sched₂.order payload b w →
        SameOutcome b.hash (e.direct sched₂ payload tx w) (e.parked sched₁ sched₂ payload tx w)) ∧
      (SameOutcome b.hash (e.direct sched₂ payload tx w) (e.parked sched₁ sched₂ payload tx w) →
        e.OwnHashClear payload b) := by
  have hh : E.validator.blockHash payload = b.hash := (E.validator.wellFormed_hash payload b hb).symm
  have hparked := onEngineMessage_parks hb hidle hparks
  rw [direct_eq e sched₂ payload tx w (hh ▸ hm)]
  simp only [OwnHashClear, KeepsDescendants]
  have hempty : (e.tree.witnessTaken payload).blockBuffer.missing b.hash = ∅ := by
    rw [← hh] at hm ⊢
    exact BlockBuffer.missing_removeWitness hm
  have hprovider : (e.tree.witnessTaken payload).provider = e.tree.provider := rfl
  unfold parked
  rw [hh]
  generalize e.tree.witnessTaken payload = t at hparked hempty hprovider ⊢
  generalize e.onEngineMessage sched₁ (.newPayload payload tx) = e₁ at hparked hparks ⊢
  -- the witness arrives, and block and witness are taken out of the buffer
  obtain ⟨hremove, hgone⟩ := BlockBuffer.passesThrough b w hempty
  rw [← hparked.blockBuffer] at hremove
  rw [onDownloadOutcome_witness ((hparked.store.provider.trans hprovider) ▸ hcodes) hremove]
  have hstore : SameStore t (e₁.tree.withBuffer (t.blockBuffer.passedThrough b w)) :=
    ⟨hparked.store.provider, hparked.store.canonicalHead, hparked.store.tracker⟩
  have hlowest : (e₁.tree.withBuffer (t.blockBuffer.passedThrough b w)).lowestBufferedAncestorOr b.hash = b.hash := by
    simp only [EngineTree.lowestBufferedAncestorOr, BlockBuffer.lowestAncestor, EngineTree.withBuffer, hgone,
      Option.map_none, Option.getD_none]
  have hown : (e₁.tree.withBuffer (t.blockBuffer.passedThrough b w)).lookupInvalid b.hash =
      (t.afterLookup (t.payloadCheck b)).lookupInvalid b.hash := by
    unfold EngineTree.lookupInvalid
    rw [← hparked.invalidHeaders]
    rfl
  refine ⟨fun hclear hkeeps => ?_, fun hsame => ?_⟩
  · -- both entry points come to the same
    rw [← hown, ← hlowest] at hclear
    obtain ⟨hanswer, hsame, hdecides⟩ := hstore.onDownloadedBlock_onNewPayload (w := w) hb
      hparked.notStored hparked.parentStored hparked.clear (hlowest ▸ hclear) hkeeps
    simp only [hanswer]
    generalize (t.onNewPayload sched₂ payload (some w)).1 = answer at hdecides ⊢
    generalize (t.onNewPayload sched₂ payload (some w)).2 = t₁ at hsame ⊢
    generalize ((e₁.tree.withBuffer (t.blockBuffer.passedThrough b w)).onDownloadedBlock sched₂ b w).2 = t₂ at hsame ⊢
    exact releases hparks hparked.responses hsame hdecides
  · by_contra hfound
    rw [← hown] at hfound
    obtain ⟨header, hheader⟩ := Option.ne_none_iff_exists'.1 hfound
    simp only [EngineTree.onDownloadedBlock, hlowest, EngineTree.checkInvalid_found b.hash hheader] at hsame
    exact releases_rejected (e := (e.withWitness b.hash w).note (.newPayload payload tx)) hparks hparked.responses
      (EngineTree.onNewPayload_notLinked hb hparked.clear rfl) hsame

end ConsensusEngine

/-- the status that a response gives for a payload -/
def Response.status? : Response → Option PayloadStatus
  | .payload (.ok status) => some status
  | _ => none

namespace Node

open Chain (mainBlock)

theorem smallWitness_complete {p : RessProvider} (h : p.database.readError = none) :
    p.missingCodeHashes (smallWitness.bytecodeHashes smallEnv.codec) = .ok ∅ := by
  have hbytes : smallWitness.bytecodeHashes smallEnv.codec = ∅ := by decide +kernel
  simp only [RessProvider.missingCodeHashes, RessDatabase.missingCodeHashes, h, hbytes, Finset.filter_empty]

/-- block 1 with its witness -/
theorem parked_agrees_first :
    let e := (smallNode []).engine
    (e.direct StateRoot.sortedSchedule (mainBlock 1, none) 1 smallWitness).responses.map (·.2.status?) =
        [some ⟨.valid, some (mainBlock 1).hash⟩] ∧
      ConsensusEngine.SameOutcome (mainBlock 1).hash
        (e.direct StateRoot.sortedSchedule (mainBlock 1, none) 1 smallWitness)
        (e.parked StateRoot.sortedSchedule StateRoot.sortedSchedule (mainBlock 1, none) 1 smallWitness) := by
  refine ⟨by decide +kernel, ?_⟩
  refine (ConsensusEngine.parked_agrees (smallNode []).engine StateRoot.sortedSchedule StateRoot.sortedSchedule
    (mainBlock 1, none) (mainBlock 1) 1 smallWitness rfl rfl (by decide +kernel)
    (smallWitness_complete (by decide +kernel)) (by decide +kernel)).1 ?_ ?_
  · unfold ConsensusEngine.OwnHashClear
    decide +kernel
  · unfold ConsensusEngine.KeepsDescendants
    decide +kernel

/-- a pass in which a junk witness of this block is ready -/
def junkReady (n : ℕ) : NodeEvent smallEnv :=
  .poll ⟨{ Network.silent with witness := fun hash => if hash = (mainBlock n).hash then some junkWitness else none },
    false, StateRoot.sortedSchedule, none, none⟩

/-- block 1 is parked, and a junk witness of it arrives -/
def junkRun : List (NodeEvent smallEnv) := [.arrive (.newPayload (mainBlock 1, none) 1), idle false, junkReady 1]

/-- **The parked path after a junk witness.** Block 1 has failed with a junk witness. With the right witness in the
buffer it is validated. When it is parked for the same witness it is rejected once more. -/
theorem parked_differs :
    let e := (smallNode junkRun).engine
    let direct := e.direct StateRoot.sortedSchedule (mainBlock 1, none) 2 smallWitness
    let parked := e.parked StateRoot.sortedSchedule StateRoot.sortedSchedule (mainBlock 1, none) 2 smallWitness
    (smallNode junkRun).terminated = none ∧ e.parkedPayload = none ∧ e.tree.Stored (mainBlock 1).parentHash ∧
      e.tree.blockBuffer.missing (mainBlock 1).hash = ∅ ∧
      e.tree.provider.missingCodeHashes (smallWitness.bytecodeHashes smallEnv.codec) = .ok ∅ ∧
      (e.onEngineMessage StateRoot.sortedSchedule (.newPayload (mainBlock 1, none) 2)).parkedPayload =
        some ⟨(mainBlock 1).hash, 2⟩ ∧
      direct.responses.map (·.2.status?) =
        [some ⟨.invalid (.insertBlock "no account"), some (mainBlock 0).hash⟩, some ⟨.valid, some (mainBlock 1).hash⟩] ∧
      parked.responses.map (·.2.status?) =
        [some ⟨.invalid (.insertBlock "no account"), some (mainBlock 0).hash⟩,
          some ⟨.invalid .linksToRejectedPayload, some (mainBlock 0).hash⟩] ∧
      direct.tree.Stored (mainBlock 1).hash ∧ ¬ parked.tree.Stored (mainBlock 1).hash := by
  intro e direct parked
  refine ⟨by decide +kernel, by decide +kernel, ChainState.sealedHeader_isSome.1 (by decide +kernel),
    by decide +kernel, smallWitness_complete (by decide +kernel), by decide +kernel, by decide +kernel,
    by decide +kernel, ChainState.sealedHeader_isSome.1 (by decide +kernel),
    ChainState.sealedHeader_none.1 (by decide +kernel)⟩

end Node

end Ress
