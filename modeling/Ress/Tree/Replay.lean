/-
What a block's buffered descendants do to the answer about the block.

After a block has been inserted, the same call replays its buffered descendants, and the fatal error of one of them
becomes the answer (`onNewPayload_answer`, `onDownloadedBlock_answer`). `replayError` is that error, if there is one.
-/
import Ress.Tree.Connecting

namespace Ress

namespace EngineTree

variable {E : Env}

/-- the first fatal error among the insertions of a list of blocks -/
def firstFatal (sched : StateRoot.Schedule) :
    List (Block × ExecutionWitness) → EngineTree E → Option InsertBlockFatalError
  | [], _ => none
  | x :: blocks, t =>
    match t.fatalError sched x with
    | some fatal => some fatal
    | none => firstFatal sched blocks (t.connectOne sched x)

/-- the fatal error in which the replay of the block's buffered descendants ends, once the block is inserted -/
def replayError (t : EngineTree E) (sched : StateRoot.Schedule) (block : Block) (witness : ExecutionWitness) :
    Option InsertBlockFatalError :=
  let t := (t.insertBlock sched block (some witness)).2
  firstFatal sched (t.takenFor sched.order block.hash) (t.takeFor sched.order block.hash)

/-- VALID with the block's own hash, and the event that makes it canonical if it is the sync target -/
def validAnswer (t : EngineTree E) (block : Block) : Answer :=
  .ok ⟨⟨.valid, some block.hash⟩,
    if t.isSyncTargetHead block.hash then some (TreeEvent.makeCanonical block.hash) else none⟩

/-- the tree with another invalid header cache -/
def withCache (t : EngineTree E) (cache : E.cache.Cache) : EngineTree E := { t with invalidHeaders := cache }

variable {t t' : EngineTree E} {sched : StateRoot.Schedule} {x : Block × ExecutionWitness}
  {blocks : List (Block × ExecutionWitness)}

theorem connectBlocks_answer (blocks : List (Block × ExecutionWitness)) (t : EngineTree E) :
    (connectBlocks sched blocks t).1 = (firstFatal sched blocks t).elim (.ok ()) .error := by
  induction blocks generalizing t with
  | nil => rfl
  | cons x blocks ih =>
    simp only [firstFatal]
    cases hx : t.fatalError sched x with
    | some fatal =>
      rw [connectBlocks_fatal hx]
      rfl
    | none =>
      rw [connectBlocks_next hx, ih]

/-! ## The invalid header cache plays no part in an insertion -/

theorem Forgets.withCache (hf : Forgets t t') : t' = t.withCache t'.invalidHeaders := hf.same

theorem isForkFrom_withCache (t : EngineTree E) (cache : E.cache.Cache) (fuel : ℕ) (hash : B256) :
    (t.withCache cache).isForkFrom fuel hash = t.isForkFrom fuel hash := by
  induction fuel generalizing hash with
  | zero => rfl
  | succ fuel ih =>
    simp only [isForkFrom, ih]
    rfl

theorem insertBlock_withCache (t : EngineTree E) (cache : E.cache.Cache) (sched : StateRoot.Schedule) (block : Block)
    (mw : Option ExecutionWitness) :
    (t.withCache cache).insertBlock sched block mw =
      ((t.insertBlock sched block mw).1, (t.insertBlock sched block mw).2.withCache cache) := by
  have hprovider : (t.withCache cache).provider = t.provider := rfl
  have hexecute : ∀ parent witness, (t.withCache cache).executeBlock sched block parent witness =
      t.executeBlock sched block parent witness := fun _ _ => rfl
  simp only [insertBlock, tryInsertBlock]
  rw [hprovider]
  by_cases hs : (t.provider.sealedHeader block.hash).isSome = true
  · rw [if_pos hs, if_pos hs]
    rfl
  · rw [if_neg hs, if_neg hs]
    cases validateBlock E block with
    | error error => rfl
    | ok _ =>
      cases t.provider.sealedHeader block.parentHash with
      | none => cases mw <;> rfl
      | some parent =>
        simp only
        cases E.consensus.validateHeaderAgainstParent block.toSealedHeader
            { parent with hash := block.parentHash } with
        | error error => rfl
        | ok _ =>
          cases mw with
          | none => rfl
          | some witness =>
            simp only [hexecute]
            cases t.executeBlock sched block parent witness with
            | error kind => rfl
            | ok _ =>
              -- the event is found by walking back over stored blocks
              have hfork := isForkFrom_withCache
                { t with provider := t.provider.insertBlock block (some witness.stateWitness) } cache
              simp only [withCache] at hfork
              simp only [isFork, emitEvent, withCache, hfork]
              rfl

theorem makeCanonical_withCache (t : EngineTree E) (cache : E.cache.Cache) (target : B256) :
    (t.withCache cache).makeCanonical target = (t.makeCanonical target).withCache cache := by
  have hnew : (t.withCache cache).onNewHead target = t.onNewHead target := rfl
  simp only [makeCanonical, hnew]
  cases t.onNewHead target with
  | none => rfl
  | some update => rfl

theorem onInsertBlockError_fatal (t : EngineTree E) (block : Block) {kind : InsertBlockErrorKind}
    {fatal : InsertBlockFatalError} (he : E.ensureValidationError kind = .error fatal) :
    t.onInsertBlockError block kind = (.error fatal, t) := by
  simp only [onInsertBlockError, he]

/-- a validation error changes only the cache -/
theorem onInsertBlockError_invalid (t : EngineTree E) (block : Block) {kind : InsertBlockErrorKind} {text : String}
    (he : E.ensureValidationError kind = .ok text) :
    ∃ status cache, t.onInsertBlockError block kind = (.ok status, t.withCache cache) := by
  simp only [onInsertBlockError, he]
  rw [(latestValidHash_forgets t block.parentHash).withCache]
  exact ⟨_, _, rfl⟩

theorem fatalError_withCache (t : EngineTree E) (cache : E.cache.Cache) (sched : StateRoot.Schedule)
    (x : Block × ExecutionWitness) : (t.withCache cache).fatalError sched x = t.fatalError sched x := by
  simp only [fatalError, insertBlock_withCache]

theorem connectOne_withCache (t : EngineTree E) (cache : E.cache.Cache) (sched : StateRoot.Schedule)
    (x : Block × ExecutionWitness) :
    ∃ cache', (t.withCache cache).connectOne sched x = (t.connectOne sched x).withCache cache' := by
  simp only [connectOne, connectBlocks, insertBlock_withCache]
  cases t.insertBlock sched x.1 (some x.2) with
  | mk result t₁ =>
    cases result with
    | ok result =>
      have htarget : (t₁.withCache cache).isSyncTargetHead x.1.hash = t₁.isSyncTargetHead x.1.hash := rfl
      simp only [htarget, makeCanonical_withCache]
      split_ifs
      · exact ⟨cache, rfl⟩
      · exact ⟨cache, rfl⟩
    | error kind =>
      simp only
      cases he : E.ensureValidationError kind with
      | error fatal =>
        rw [onInsertBlockError_fatal _ x.1 he, onInsertBlockError_fatal _ x.1 he]
        exact ⟨cache, rfl⟩
      | ok text =>
        obtain ⟨status₁, cache₁, h₁⟩ := onInsertBlockError_invalid (t₁.withCache cache) x.1 he
        obtain ⟨status₂, cache₂, h₂⟩ := onInsertBlockError_invalid t₁ x.1 he
        rw [h₁, h₂]
        exact ⟨cache₁, rfl⟩

theorem firstFatal_withCache (blocks : List (Block × ExecutionWitness)) (t : EngineTree E) (cache : E.cache.Cache) :
    firstFatal sched blocks (t.withCache cache) = firstFatal sched blocks t := by
  induction blocks generalizing t cache with
  | nil => rfl
  | cons x blocks ih =>
    simp only [firstFatal, fatalError_withCache]
    cases t.fatalError sched x with
    | some fatal => rfl
    | none =>
      obtain ⟨cache', h⟩ := connectOne_withCache t cache sched x
      simp only [h, ih]

/-! ## The sync target does not change -/

theorem Inserts.tracker {b : Block} {mw : Option ExecutionWitness} {r : Except InsertBlockErrorKind InsertPayloadOk}
    (hi : Inserts t b mw r t') : t'.forkchoiceStateTracker = t.forkchoiceStateTracker := by
  cases hi <;> rfl

theorem Fails.tracker {b : Block} {kind : InsertBlockErrorKind} {r : Except InsertBlockFatalError PayloadStatus}
    (hf : Fails t b kind r t') : t'.forkchoiceStateTracker = t.forkchoiceStateTracker := by
  cases hf with
  | fatal => rfl
  | invalid text _ latestValidHash t₁ hforget => rw [hforget.same]

theorem makeCanonical_tracker (t : EngineTree E) (target : B256) :
    (t.makeCanonical target).forkchoiceStateTracker = t.forkchoiceStateTracker := by
  simp only [makeCanonical]
  cases t.onNewHead target with
  | none => rfl
  | some update => rfl

theorem Connects.tracker {r : Except InsertBlockFatalError Unit} (hc : Connects blocks t r t') :
    t'.forkchoiceStateTracker = t.forkchoiceStateTracker := by
  induction hc with
  | nil => rfl
  | inserted hi _ ih => exact ih.trans hi.tracker
  | target hi _ ih => exact ih.trans ((makeCanonical_tracker _ _).trans hi.tracker)
  | failed hi hf _ ih => exact ih.trans (hf.tracker.trans hi.tracker)
  | fatal hi hf => exact hf.tracker.trans hi.tracker

theorem isSyncTargetHead_congr (h : t'.forkchoiceStateTracker = t.forkchoiceStateTracker) (hash : B256) :
    t'.isSyncTargetHead hash = t.isSyncTargetHead hash := by
  simp only [isSyncTargetHead, h]

/-! ## The answer -/

variable {b : Block} {w : ExecutionWitness}

/-- the block passes the check against the invalid header cache: only the cache changes -/
theorem checkInvalid_passes {check : B256} (hash : B256) (hn : t.lookupInvalid check = none) :
    ∃ cache, t.checkInvalidAncestorWithHead check hash = (none, t.withCache cache) := by
  rcases checkInvalidAncestorWithHead_cases t check hash with ⟨-, hnone, hf⟩ | ⟨header, -, -, hh, -⟩
  · refine ⟨(t.checkInvalidAncestorWithHead check hash).2.invalidHeaders, ?_⟩
    exact Prod.ext hnone hf.withCache
  · rw [hn] at hh
    cases hh

/-- the replay after the insertion, whatever the lookups have done to the cache -/
theorem tryConnect_answer (sched : StateRoot.Schedule) (t : EngineTree E) (cache : E.cache.Cache) (hash : B256) :
    ((t.withCache cache).tryConnectBufferedBlocks sched hash).1 =
      (firstFatal sched (t.takenFor sched.order hash) (t.takeFor sched.order hash)).elim (.ok ()) .error := by
  rw [← firstFatal_withCache _ _ cache]
  exact connectBlocks_answer _ _

/-- **A payload whose block is inserted as valid** is answered by the replay of its descendants. -/
theorem onNewPayload_answer {payload : E.validator.ExecutionData}
    (hw : E.validator.ensureWellFormedPayload payload = .ok b) (hn : t.lookupInvalid (t.payloadCheck b) = none)
    (hv : (t.insertBlock sched b (some w)).1 = .ok (.inserted .valid)) :
    (t.onNewPayload sched payload (some w)).1 = (t.replayError sched b w).elim (t.validAnswer b) .error := by
  obtain ⟨cache, hcheck⟩ := checkInvalid_passes b.hash hn
  have hi := insertBlock_inserts t sched b (some w)
  simp only [payloadCheck] at hcheck
  simp only [onNewPayload, hw, hcheck, insertBlock_withCache, replayError]
  cases hr : t.insertBlock sched b (some w) with
  | mk result t₂ =>
    rw [hr] at hv hi
    simp only at hv
    subst hv
    simp only
    have hanswer := tryConnect_answer sched t₂ cache b.hash
    have hconnects := tryConnect_connects (t₂.withCache cache) sched b.hash
    cases hk : (t₂.withCache cache).tryConnectBufferedBlocks sched b.hash with
    | mk answer t₃ =>
      rw [hk] at hanswer hconnects
      have htarget := isSyncTargetHead_congr (hconnects.tracker.trans hi.tracker) b.hash
      cases hfatal : firstFatal sched (t₂.takenFor sched.order b.hash) (t₂.takeFor sched.order b.hash) with
      | some fatal =>
        rw [hfatal] at hanswer
        simp only [Option.elim] at hanswer ⊢
        subst hanswer
        rfl
      | none =>
        rw [hfatal] at hanswer
        simp only [Option.elim] at hanswer ⊢
        subst hanswer
        simp only [htarget, validAnswer]

/-- **A downloaded block that is inserted as valid** is answered in the same way. -/
theorem onDownloadedBlock_answer (hn : t.lookupInvalid (t.lowestBufferedAncestorOr b.hash) = none)
    (hv : (t.insertBlock sched b (some w)).1 = .ok (.inserted .valid)) :
    (t.onDownloadedBlock sched b w).1 = (t.replayError sched b w).elim (t.validAnswer b) .error := by
  obtain ⟨cache, hcheck⟩ := checkInvalid_passes b.hash hn
  have hi := insertBlock_inserts t sched b (some w)
  simp only [onDownloadedBlock, hcheck, insertBlock_withCache, replayError]
  cases hr : t.insertBlock sched b (some w) with
  | mk result t₂ =>
    rw [hr] at hv hi
    simp only at hv
    subst hv
    simp only
    have hanswer := tryConnect_answer sched t₂ cache b.hash
    have htarget : (t₂.withCache cache).isSyncTargetHead b.hash = t.isSyncTargetHead b.hash :=
      isSyncTargetHead_congr hi.tracker b.hash
    cases hk : (t₂.withCache cache).tryConnectBufferedBlocks sched b.hash with
    | mk answer t₃ =>
      rw [hk] at hanswer
      cases hfatal : firstFatal sched (t₂.takenFor sched.order b.hash) (t₂.takeFor sched.order b.hash) with
      | some fatal =>
        rw [hfatal] at hanswer
        simp only [Option.elim] at hanswer ⊢
        subst hanswer
        rfl
      | none =>
        rw [hfatal] at hanswer
        simp only [Option.elim] at hanswer ⊢
        subst hanswer
        simp only [htarget, validAnswer]

end EngineTree

end Ress
