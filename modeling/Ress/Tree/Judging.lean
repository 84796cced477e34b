/-
Which calls reject a block, and with what.

`on_new_payload` and `on_downloaded_block` reject a block in two ways: on account of an entry of the invalid header
cache, or because its own insertion ends in a validation error. `Judges` says for both functions which of the two it is,
what exactly is answered and what is recorded. They differ in the hash `check` that is looked up.
-/
import Ress.Tree.Handling

namespace Ress

/-- the status INVALID -/
def PayloadStatus.IsInvalid (s : PayloadStatus) : Prop := ∃ error, s.status = .invalid error

namespace EngineTree

variable {E : Env} {t t' : EngineTree E} {sched : StateRoot.Schedule} {b : Block}

/-! ## The response reads the store and the cache only -/

theorem latestValidLoop_congr (hp : t'.provider = t.provider) (fuel : ℕ) (cache : E.cache.Cache)
    (current : Option BlockWithParent) :
    t'.latestValidLoop fuel cache current = t.latestValidLoop fuel cache current := by
  induction fuel generalizing cache current with
  | zero => rfl
  | succ fuel ih =>
    cases current with
    | none => rfl
    | some current => simp only [latestValidLoop, hp, ih]

theorem latestValidHash_congr (hp : t'.provider = t.provider) (hc : t'.invalidHeaders = t.invalidHeaders)
    (parentHash : B256) :
    (t'.latestValidHashForInvalidPayload parentHash).1 = (t.latestValidHashForInvalidPayload parentHash).1 := by
  simp only [latestValidHashForInvalidPayload, hp, hc, latestValidLoop_congr hp]
  split_ifs
  · rfl
  · rfl

/-- what is answered is up to the store and the cache -/
theorem prepareInvalidResponse_congr (hp : t'.provider = t.provider) (hc : t'.invalidHeaders = t.invalidHeaders)
    (parentHash : B256) : (t'.prepareInvalidResponse parentHash).1 = (t.prepareInvalidResponse parentHash).1 := by
  have hparent : t'.invalidResponseParent parentHash = t.invalidResponseParent parentHash := by
    simp only [invalidResponseParent, hp]
  simp only [prepareInvalidResponse, hparent, latestValidHash_congr hp hc]

/-! ## Two ways to be rejected -/

/-- the tree after the lookup of a hash in the invalid header cache -/
def afterLookup (t : EngineTree E) (check : B256) : EngineTree E :=
  t.withCache (E.cache.get t.invalidHeaders check).2

/-- the tree after a block has passed the check and its insertion has been tried -/
def afterInsertion (t : EngineTree E) (sched : StateRoot.Schedule) (check : B256) (block : Block)
    (mw : Option ExecutionWitness) : EngineTree E :=
  (t.insertBlock sched block mw).2.withCache (E.cache.get t.invalidHeaders check).2

/-- the block is rejected on account of the entry found under `check`, or because its insertion fails, or it is not
rejected -/
inductive Judges (t : EngineTree E) (sched : StateRoot.Schedule) (check : B256) (block : Block)
    (mw : Option ExecutionWitness) : Answer → EngineTree E → Prop
  | rejected (header : BlockWithParent) (hh : t.lookupInvalid check = some header) :
      Judges t sched check block mw
        (.ok (TreeOutcome.new ((t.afterLookup check).prepareInvalidResponse header.parent).1))
        (((t.afterLookup check).prepareInvalidResponse header.parent).2.withCache
          (E.cache.insertWithInvalidAncestor ((t.afterLookup check).prepareInvalidResponse header.parent).2.invalidHeaders
            block.hash header))
  | failed (kind : InsertBlockErrorKind) (text : String) (hn : t.lookupInvalid check = none)
      (hr : (t.insertBlock sched block mw).1 = .error kind) (hv : E.ensureValidationError kind = .ok text) :
      Judges t sched check block mw
        (.ok (TreeOutcome.new ⟨.invalid (.insertBlock text),
          ((t.afterInsertion sched check block mw).latestValidHashForInvalidPayload block.parentHash).1⟩))
        (((t.afterInsertion sched check block mw).latestValidHashForInvalidPayload block.parentHash).2.withCache
          (E.cache.insert ((t.afterInsertion sched check block mw).latestValidHashForInvalidPayload
            block.parentHash).2.invalidHeaders block.blockWithParent))
  | passed {answer : Answer} {t' : EngineTree E} (hn : t.lookupInvalid check = none)
      (hr : ∀ kind, (t.insertBlock sched block mw).1 = .error kind → ∃ fatal, E.ensureValidationError kind = .error fatal)
      (ha : ∀ outcome, answer = .ok outcome → ¬ outcome.outcome.IsInvalid) : Judges t sched check block mw answer t'

theorem checkInvalid_found {check : B256} {header : BlockWithParent} (hash : B256)
    (hh : t.lookupInvalid check = some header) :
    t.checkInvalidAncestorWithHead check hash =
      (some ((t.afterLookup check).prepareInvalidResponse header.parent).1,
        ((t.afterLookup check).prepareInvalidResponse header.parent).2.withCache
          (E.cache.insertWithInvalidAncestor ((t.afterLookup check).prepareInvalidResponse header.parent).2.invalidHeaders
            hash header)) := by
  unfold lookupInvalid at hh
  unfold checkInvalidAncestorWithHead afterLookup withCache
  cases hc : E.cache.get t.invalidHeaders check with
  | mk found cache =>
    rw [hc] at hh
    simp only at hh
    subst hh
    rfl

theorem checkInvalid_notFound {check : B256} (hash : B256) (hn : t.lookupInvalid check = none) :
    t.checkInvalidAncestorWithHead check hash = (none, t.afterLookup check) := by
  unfold lookupInvalid at hn
  unfold checkInvalidAncestorWithHead afterLookup withCache
  cases hc : E.cache.get t.invalidHeaders check with
  | mk found cache =>
    rw [hc] at hn
    simp only at hn
    subst hn
    rfl

theorem insertBlock_afterLookup (t : EngineTree E) (sched : StateRoot.Schedule) (check : B256) (b : Block)
    (mw : Option ExecutionWitness) :
    (t.afterLookup check).insertBlock sched b mw = ((t.insertBlock sched b mw).1, t.afterInsertion sched check b mw) :=
  insertBlock_withCache t _ sched b mw

/-- an answer that is not INVALID is no rejection -/
theorem Judges.of_accepts {check : B256} {mw : Option ExecutionWitness} {status : PayloadStatus}
    {event : Option TreeEvent} {result : InsertPayloadOk} {t' : EngineTree E} (hn : t.lookupInvalid check = none)
    (hr : (t.insertBlock sched b mw).1 = .ok result) (hs : ∀ error, status.status ≠ .invalid error) :
    Judges t sched check b mw (.ok ⟨status, event⟩) t' := by
  refine Judges.passed hn (fun kind herr => ?_) ?_
  · rw [hr] at herr
    cases herr
  · rintro outcome ⟨rfl⟩ ⟨error, herror⟩
    exact hs error herror

theorem Judges.of_fatal {check : B256} {mw : Option ExecutionWitness} {fatal : InsertBlockFatalError}
    {t' : EngineTree E} (hn : t.lookupInvalid check = none)
    (hr : ∀ kind, (t.insertBlock sched b mw).1 = .error kind → ∃ fatal, E.ensureValidationError kind = .error fatal) :
    Judges t sched check b mw (.error fatal) t' := by
  refine Judges.passed hn hr ?_
  rintro outcome ⟨⟩

/-- a failed insertion is answered by `on_insert_block_error` -/
theorem Judges.of_error {check : B256} {mw : Option ExecutionWitness} {kind : InsertBlockErrorKind}
    (hn : t.lookupInvalid check = none) (hr : (t.insertBlock sched b mw).1 = .error kind) :
    let r := (t.afterInsertion sched check b mw).onInsertBlockError b kind
    Judges t sched check b mw (r.1.map TreeOutcome.new) r.2 := by
  cases hv : E.ensureValidationError kind with
  | error fatal =>
    simp only [onInsertBlockError, hv, Except.map]
    refine Judges.of_fatal hn fun kind' hr' => ?_
    cases hr.symm.trans hr'
    exact ⟨fatal, hv⟩
  | ok text =>
    simp only [onInsertBlockError, hv, Except.map]
    exact Judges.failed kind text hn hr hv

/-- **A payload is judged** by its block. -/
theorem onNewPayload_judges (t : EngineTree E) (sched : StateRoot.Schedule) {payload : E.validator.ExecutionData}
    (mw : Option ExecutionWitness) (hb : E.validator.ensureWellFormedPayload payload = .ok b) :
    Judges t sched (t.payloadCheck b) b mw (t.onNewPayload sched payload mw).1 (t.onNewPayload sched payload mw).2 := by
  simp only [onNewPayload, hb]
  rw [show (if t.lowestBufferedAncestorOr b.hash = b.hash then b.parentHash
    else t.lowestBufferedAncestorOr b.hash) = t.payloadCheck b from rfl]
  cases hn : t.lookupInvalid (t.payloadCheck b) with
  | some header =>
    rw [checkInvalid_found b.hash hn]
    exact Judges.rejected header hn
  | none =>
    rw [checkInvalid_notFound b.hash hn]
    simp only [insertBlock_afterLookup]
    cases hr : (t.insertBlock sched b mw).1 with
    | error kind =>
      have hjudges := Judges.of_error hn hr
      simp only at hjudges ⊢
      cases hk : (t.afterInsertion sched (t.payloadCheck b) b mw).onInsertBlockError b kind with
      | mk answer t₂ =>
        rw [hk] at hjudges
        cases answer <;> exact hjudges
    | ok result =>
      have hfatal : ∀ kind, (t.insertBlock sched b mw).1 = .error kind →
          ∃ fatal, E.ensureValidationError kind = .error fatal := by
        intro kind herr
        cases hr.symm.trans herr
      cases hk : (t.afterInsertion sched (t.payloadCheck b) b mw).tryConnectBufferedBlocks sched b.hash with
      | mk answer t₂ =>
        cases result with
        | alreadySeen =>
          simp only [hk]
          cases answer with
          | error fatal => exact Judges.of_fatal hn hfatal
          | ok _ => exact Judges.of_accepts hn hr (by simp)
        | inserted status =>
          cases status with
          | valid =>
            simp only [hk]
            cases answer with
            | error fatal => exact Judges.of_fatal hn hfatal
            | ok _ => exact Judges.of_accepts hn hr (by simp)
          | disconnected head missing => exact Judges.of_accepts hn hr (by simp)
          | noWitness => exact Judges.of_accepts hn hr (by simp)

/-- **A downloaded block is judged** likewise. -/
theorem onDownloadedBlock_judges (t : EngineTree E) (sched : StateRoot.Schedule) (b : Block)
    (witness : ExecutionWitness) :
    Judges t sched (t.lowestBufferedAncestorOr b.hash) b (some witness) (t.onDownloadedBlock sched b witness).1
      (t.onDownloadedBlock sched b witness).2 := by
  simp only [onDownloadedBlock]
  cases hn : t.lookupInvalid (t.lowestBufferedAncestorOr b.hash) with
  | some header =>
    rw [checkInvalid_found b.hash hn]
    exact Judges.rejected header hn
  | none =>
    rw [checkInvalid_notFound b.hash hn]
    simp only [insertBlock_afterLookup]
    cases hr : (t.insertBlock sched b (some witness)).1 with
    | error kind =>
      have hjudges := Judges.of_error hn hr
      simp only at hjudges ⊢
      cases hk : (t.afterInsertion sched (t.lowestBufferedAncestorOr b.hash) b (some witness)).onInsertBlockError b
          kind with
      | mk answer t₂ =>
        rw [hk] at hjudges
        cases answer <;> exact hjudges
    | ok result =>
      cases result with
      | alreadySeen => exact Judges.of_accepts hn hr (by simp)
      | inserted status =>
        cases status with
        | valid =>
          simp only
          cases hk : (t.afterInsertion sched (t.lowestBufferedAncestorOr b.hash) b
              (some witness)).tryConnectBufferedBlocks sched b.hash with
          | mk answer t₂ =>
            cases answer with
            | error fatal =>
              refine Judges.of_fatal hn fun kind herr => ?_
              cases hr.symm.trans herr
            | ok _ => exact Judges.of_accepts hn hr (by simp)
        | disconnected head missing => exact Judges.of_accepts hn hr (by simp)
        | noWitness => exact Judges.of_accepts hn hr (by simp)

end EngineTree

end Ress
