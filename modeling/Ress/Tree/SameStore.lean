/-
Two trees with the same store.

What an insertion stores, and whether it fails, is up to the provider. Neither the buffer nor the invalid header cache
plays a part. So trees that agree on provider, head and sync target (`SameStore`) still agree after the same block, or
the same list of blocks, has been inserted in both.
-/
import Ress.Tree.Judging

namespace Ress

namespace EngineTree

variable {E : Env} {t t' : EngineTree E} {sched : StateRoot.Schedule} {b : Block} {mw : Option ExecutionWitness}

/-- provider, canonical head and sync target are the same -/
structure SameStore (t t' : EngineTree E) : Prop where
  provider : t'.provider = t.provider
  canonicalHead : t'.canonicalHead = t.canonicalHead
  tracker : t'.forkchoiceStateTracker = t.forkchoiceStateTracker

/-- the results of two calls differ only in the missing ancestor of a block that is disconnected in both -/
def SameResult (r r' : Except InsertBlockErrorKind InsertPayloadOk) : Prop :=
  r' = r ∨ ∃ head missing missing', r = .ok (.inserted (.disconnected head missing)) ∧
    r' = .ok (.inserted (.disconnected head missing'))

theorem SameStore.isSyncTargetHead (h : SameStore t t') (hash : B256) :
    t'.isSyncTargetHead hash = t.isSyncTargetHead hash := isSyncTargetHead_congr h.tracker hash

theorem SameStore.withCache (h : SameStore t t') (cache cache' : E.cache.Cache) :
    SameStore (t.withCache cache) (t'.withCache cache') := ⟨h.provider, h.canonicalHead, h.tracker⟩

/-- **The same call in both trees.** -/
theorem SameStore.insertBlock (h : SameStore t t') (sched : StateRoot.Schedule) (b : Block)
    (mw : Option ExecutionWitness) :
    SameResult (t.insertBlock sched b mw).1 (t'.insertBlock sched b mw).1 ∧
      SameStore (t.insertBlock sched b mw).2 (t'.insertBlock sched b mw).2 := by
  obtain ⟨provider, head, tracker, buffer, cache, events, insertions⟩ := t
  obtain ⟨provider', head', tracker', buffer', cache', events', insertions'⟩ := t'
  obtain ⟨hp, hhead, htracker⟩ := h
  simp only at hp hhead htracker
  subst hp hhead htracker
  simp only [EngineTree.insertBlock, tryInsertBlock]
  by_cases hs : (provider'.sealedHeader b.hash).isSome = true
  · rw [if_pos hs, if_pos hs]
    exact ⟨Or.inl rfl, rfl, rfl, rfl⟩
  · rw [if_neg hs, if_neg hs]
    cases validateBlock E b with
    | error error => exact ⟨Or.inl rfl, rfl, rfl, rfl⟩
    | ok _ =>
      cases provider'.sealedHeader b.parentHash with
      | none => exact ⟨Or.inr ⟨_, _, _, rfl, rfl⟩, rfl, rfl, rfl⟩
      | some parent =>
        simp only
        cases E.consensus.validateHeaderAgainstParent b.toSealedHeader { parent with hash := b.parentHash } with
        | error error => exact ⟨Or.inl rfl, rfl, rfl, rfl⟩
        | ok _ =>
          cases mw with
          | none => exact ⟨Or.inl rfl, rfl, rfl, rfl⟩
          | some witness =>
            -- execution reads the provider only
            simp only [executeBlock]
            split <;> exact ⟨Or.inl rfl, rfl, rfl, rfl⟩

theorem SameResult.error {r r' : Except InsertBlockErrorKind InsertPayloadOk} (h : SameResult r r')
    {kind : InsertBlockErrorKind} : r' = .error kind ↔ r = .error kind := by
  rcases h with rfl | ⟨head, missing, missing', rfl, rfl⟩
  · exact Iff.rfl
  · constructor <;> rintro ⟨⟩

theorem SameResult.valid {r r' : Except InsertBlockErrorKind InsertPayloadOk} (h : SameResult r r') :
    r' = .ok (.inserted .valid) ↔ r = .ok (.inserted .valid) := by
  rcases h with rfl | ⟨head, missing, missing', rfl, rfl⟩
  · exact Iff.rfl
  · constructor <;> rintro ⟨⟩

theorem SameStore.makeCanonical (h : SameStore t t') (target : B256) :
    SameStore (t.makeCanonical target) (t'.makeCanonical target) := by
  have hnew : t'.onNewHead target = t.onNewHead target := by
    simp only [onNewHead, h.provider, h.canonicalHead]
  simp only [EngineTree.makeCanonical, hnew]
  cases t.onNewHead target with
  | none => exact h
  | some update =>
    exact ⟨by simp only [onCanonicalChainUpdate, emitEvent, setCanonicalHead, h.provider], rfl, h.tracker⟩

/-- a failed call: fatal in both or in neither -/
theorem SameStore.onInsertBlockError (h : SameStore t t') (b : Block) (kind : InsertBlockErrorKind) :
    SameStore (t.onInsertBlockError b kind).2 (t'.onInsertBlockError b kind).2 ∧
      ∀ fatal, (t'.onInsertBlockError b kind).1 = .error fatal ↔ (t.onInsertBlockError b kind).1 = .error fatal := by
  cases he : E.ensureValidationError kind with
  | error fatal =>
    rw [onInsertBlockError_fatal t b he, onInsertBlockError_fatal t' b he]
    exact ⟨h, fun _ => Iff.rfl⟩
  | ok text =>
    obtain ⟨status, cache, heq⟩ := onInsertBlockError_invalid t b he
    obtain ⟨status', cache', heq'⟩ := onInsertBlockError_invalid t' b he
    rw [heq, heq']
    refine ⟨h.withCache cache cache', fun fatal => ?_⟩
    constructor <;> rintro ⟨⟩

/-- **The same list of blocks in both trees.** -/
theorem SameStore.connectBlocks (sched : StateRoot.Schedule) (blocks : List (Block × ExecutionWitness))
    (h : SameStore t t') :
    (EngineTree.connectBlocks sched blocks t').1 = (EngineTree.connectBlocks sched blocks t).1 ∧
      SameStore (EngineTree.connectBlocks sched blocks t).2 (EngineTree.connectBlocks sched blocks t').2 := by
  induction blocks generalizing t t' with
  | nil => exact ⟨rfl, h⟩
  | cons x blocks ih =>
    obtain ⟨child, w⟩ := x
    obtain ⟨hresult, hstore⟩ := h.insertBlock sched child (some w)
    simp only [EngineTree.connectBlocks]
    cases hr : t.insertBlock sched child (some w) with
    | mk r t₁ =>
      cases hr' : t'.insertBlock sched child (some w) with
      | mk r' t₁' =>
        rw [hr, hr'] at hresult hstore
        simp only at hresult hstore
        cases r with
        | error kind =>
          have hkind := hresult.error.2 rfl
          subst hkind
          obtain ⟨hstore₂, hfatal⟩ := hstore.onInsertBlockError child kind
          simp only
          cases hk : t₁.onInsertBlockError child kind with
          | mk answer t₂ =>
            cases hk' : t₁'.onInsertBlockError child kind with
            | mk answer' t₂' =>
              rw [hk, hk'] at hstore₂ hfatal
              simp only at hstore₂ hfatal
              cases answer with
              | error fatal =>
                have hanswer := (hfatal fatal).2 rfl
                subst hanswer
                exact ⟨rfl, hstore₂⟩
              | ok status =>
                cases answer' with
                | error fatal => cases (hfatal fatal).1 rfl
                | ok status' => exact ih hstore₂
        | ok result =>
          cases r' with
          | error kind => cases hresult.error.1 rfl
          | ok result' =>
            have hvalid : result' = .inserted .valid ↔ result = .inserted .valid := by
              have hiff := hresult.valid
              simpa only [Except.ok.injEq] using hiff
            simp only [hstore.isSyncTargetHead, hvalid]
            split_ifs
            · exact ih (hstore.makeCanonical child.hash)
            · exact ih hstore

/-! ## The two entry points -/

/-- an answer that asks for nothing to be downloaded -/
def Decides (answer : Answer) : Prop := ∀ event, announced answer = some event → ∃ target, event = .makeCanonical target

theorem SameStore.latestValidHash (h : SameStore t t') {parentHash : B256} (hp : t.Stored parentHash) :
    (t'.latestValidHashForInvalidPayload parentHash).1 = (t.latestValidHashForInvalidPayload parentHash).1 ∧
      SameStore (t.latestValidHashForInvalidPayload parentHash).2
        (t'.latestValidHashForInvalidPayload parentHash).2 := by
  have hs : (t.provider.sealedHeader parentHash).isSome = true := ChainState.sealedHeader_isSome.2 hp
  simp only [latestValidHashForInvalidPayload, h.provider, hs, if_true]
  exact ⟨trivial, h⟩

/-- the block's descendants are the same list in both trees -/
theorem SameStore.tryConnect (h : SameStore t t') {parentHash : B256}
    (htaken : t'.takenFor sched.order parentHash = t.takenFor sched.order parentHash) :
    (t'.tryConnectBufferedBlocks sched parentHash).1 = (t.tryConnectBufferedBlocks sched parentHash).1 ∧
      SameStore (t.tryConnectBufferedBlocks sched parentHash).2
        (t'.tryConnectBufferedBlocks sched parentHash).2 := by
  have htakes : SameStore (t.takeFor sched.order parentHash) (t'.takeFor sched.order parentHash) :=
    ⟨h.provider, h.canonicalHead, h.tracker⟩
  have hconnect := htakes.connectBlocks sched (t.takenFor sched.order parentHash)
  rw [← htaken] at hconnect
  rw [show t.tryConnectBufferedBlocks sched parentHash =
    EngineTree.connectBlocks sched (t.takenFor sched.order parentHash) (t.takeFor sched.order parentHash) from rfl]
  rw [← htaken]
  exact hconnect

/-- the block has been inserted in both trees: it is announced after its descendants have been connected in one, and
before that in the other -/
theorem SameStore.announceValid (h : SameStore t t') {hash : B256}
    (htaken : t'.takenFor sched.order hash = t.takenFor sched.order hash) :
    let event (t : EngineTree E) := if t.isSyncTargetHead hash then some (TreeEvent.makeCanonical hash) else none
    let direct : Answer × EngineTree E :=
      match t.tryConnectBufferedBlocks sched hash with
      | (.error fatal, t) => (.error fatal, t)
      | (.ok (), t) => (.ok ⟨⟨.valid, some hash⟩, event t⟩, t)
    let downloaded : Answer × EngineTree E :=
      match t'.tryConnectBufferedBlocks sched hash with
      | (.error fatal, t) => (.error fatal, t)
      | (.ok (), t) => (.ok ⟨⟨.valid, some hash⟩, event t'⟩, t)
    downloaded.1 = direct.1 ∧ SameStore direct.2 downloaded.2 ∧ Decides direct.1 := by
  obtain ⟨hanswer, hstore⟩ := h.tryConnect htaken
  have htarget : (t.tryConnectBufferedBlocks sched hash).2.isSyncTargetHead hash = t.isSyncTargetHead hash :=
    isSyncTargetHead_congr (tryConnect_connects t sched hash).tracker hash
  have hbefore : t'.isSyncTargetHead hash = t.isSyncTargetHead hash := h.isSyncTargetHead hash
  cases hc : t.tryConnectBufferedBlocks sched hash with
  | mk r t₁ =>
    cases hc' : t'.tryConnectBufferedBlocks sched hash with
    | mk r' t₁' =>
      rw [hc] at hanswer hstore htarget
      rw [hc'] at hanswer hstore
      simp only at hanswer hstore htarget ⊢
      subst hanswer
      cases r' with
      | error fatal =>
        refine ⟨rfl, hstore, ?_⟩
        rintro event ⟨⟩
      | ok _ =>
        -- connecting moves no sync target
        simp only [htarget, hbefore]
        refine ⟨trivial, hstore, fun event hevent => ⟨hash, ?_⟩⟩
        simp only [announced, Except.toOption, Option.bind] at hevent
        split_ifs at hevent
        exact (Option.some.inj hevent).symm

/-- **A block with its witness, by either entry point.** The parent is stored and the block is not. Neither lookup in
the invalid header cache finds anything, and the block's descendants are the same. Then a payload and a downloaded block
get the same answer and leave the same store. -/
theorem SameStore.onDownloadedBlock_onNewPayload (h : SameStore t t') {payload : E.validator.ExecutionData}
    {w : ExecutionWitness} (hb : E.validator.ensureWellFormedPayload payload = .ok b) (hns : ¬ t.Stored b.hash)
    (hp : t.Stored b.parentHash) (hn : t.lookupInvalid (t.payloadCheck b) = none)
    (hn' : t'.lookupInvalid (t'.lowestBufferedAncestorOr b.hash) = none)
    (htaken : t'.takenFor sched.order b.hash = t.takenFor sched.order b.hash) :
    (t'.onDownloadedBlock sched b w).1 = (t.onNewPayload sched payload (some w)).1 ∧
      SameStore (t.onNewPayload sched payload (some w)).2 (t'.onDownloadedBlock sched b w).2 ∧
      Decides (t.onNewPayload sched payload (some w)).1 := by
  simp only [onNewPayload, onDownloadedBlock, hb]
  rw [show (if t.lowestBufferedAncestorOr b.hash = b.hash then b.parentHash
    else t.lowestBufferedAncestorOr b.hash) = t.payloadCheck b from rfl]
  rw [checkInvalid_notFound b.hash hn, checkInvalid_notFound b.hash hn']
  simp only [insertBlock_afterLookup, afterInsertion]
  obtain ⟨hresult, hstore⟩ := h.insertBlock sched b (some w)
  have hi := insertBlock_inserts t sched b (some w)
  have hi' := insertBlock_inserts t' sched b (some w)
  cases hr : t.insertBlock sched b (some w) with
  | mk r t₁ =>
    cases hr' : t'.insertBlock sched b (some w) with
    | mk r' t₁' =>
      rw [hr, hr'] at hresult hstore
      rw [hr] at hi
      rw [hr'] at hi'
      simp only at hresult hstore hi hi'
      have hcached := hstore.withCache (E.cache.get t.invalidHeaders (t.payloadCheck b)).2
        (E.cache.get t'.invalidHeaders (t'.lowestBufferedAncestorOr b.hash)).2
      cases hi with
      | alreadySeen hs => exact absurd hs hns
      | disconnected _ _ _ hnp => exact absurd hp hnp
      | noWitness hmw => cases hmw
      | refused kind _ =>
        have hkind := hresult.error.2 rfl
        subst hkind
        simp only
        cases hv : E.ensureValidationError kind with
        | error fatal =>
          rw [onInsertBlockError_fatal _ b hv, onInsertBlockError_fatal _ b hv]
          refine ⟨rfl, hcached, ?_⟩
          rintro event ⟨⟩
        | ok text =>
          obtain ⟨hlvh, hforget⟩ := SameStore.latestValidHash hcached (hp : Stored _ b.parentHash)
          simp only [EngineTree.onInsertBlockError, hv, hlvh]
          refine ⟨trivial, hforget.withCache _ _, ?_⟩
          rintro event ⟨⟩
      | valid witness hmw _ _ event =>
        have hvalid := hresult.valid.2 rfl
        subst hvalid
        cases hi' with
        | valid witness' _ _ _ event' =>
          exact hcached.announceValid htaken

end EngineTree

end Ress
