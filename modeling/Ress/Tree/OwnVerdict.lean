/-
Whether the verdict on a block is its own.

The call that inserts a block goes on to connect its buffered descendants, with witnesses that came from peers. A
descendant that is merely invalid is recorded and does not matter. One whose insertion is refused with a fatal error
(`FatallyRefuses`) takes the place of the answer about the block.

- `verdict_iff`: exactly when the answer about a block that inserts as valid is VALID, and exactly when two trees that
  differ only below the block (`DiffersBelow`) answer alike.
- `verdict_lost_to_child`: a child with a witness that cannot be revealed.
-/
import Ress.Tree.Judging

namespace Ress

namespace EngineTree

variable {E : Env}

/-! ## Descendants that are refused -/

/-- the block is refused with its witness, and the error is fatal -/
def FatallyRefuses (t : EngineTree E) (sched : StateRoot.Schedule) (x : Block × ExecutionWitness)
    (fatal : InsertBlockFatalError) : Prop :=
  ∃ kind, t.Refuses sched x.1 (some x.2) kind ∧ E.ensureValidationError kind = .error fatal

/-- no block of the list is refused fatally when its turn comes -/
def NoneFatal (sched : StateRoot.Schedule) : List (Block × ExecutionWitness) → EngineTree E → Prop
  | [], _ => True
  | x :: blocks, t => (∀ fatal, ¬ t.FatallyRefuses sched x fatal) ∧ NoneFatal sched blocks (t.connectOne sched x)

/-- the first block of the list that is refused fatally is refused with this error -/
def FirstFatal (sched : StateRoot.Schedule) (fatal : InsertBlockFatalError) :
    List (Block × ExecutionWitness) → EngineTree E → Prop
  | [], _ => False
  | x :: blocks, t =>
    t.FatallyRefuses sched x fatal ∨
      (∀ other, ¬ t.FatallyRefuses sched x other) ∧ FirstFatal sched fatal blocks (t.connectOne sched x)

/-- no buffered descendant that is connected after the block is refused fatally -/
def DescendantsPass (t : EngineTree E) (sched : StateRoot.Schedule) (block : Block) (witness : ExecutionWitness) :
    Prop :=
  let t := (t.insertBlock sched block (some witness)).2
  NoneFatal sched (t.takenFor sched.order block.hash) (t.takeFor sched.order block.hash)

/-- the first buffered descendant that is refused fatally is refused with this error -/
def DescendantsFail (t : EngineTree E) (sched : StateRoot.Schedule) (block : Block) (witness : ExecutionWitness)
    (fatal : InsertBlockFatalError) : Prop :=
  let t := (t.insertBlock sched block (some witness)).2
  FirstFatal sched fatal (t.takenFor sched.order block.hash) (t.takeFor sched.order block.hash)

/-- the descendants of the block do the same in both trees: all pass, or the first that fails does so with the same
error -/
def DescendantsAlike (t t' : EngineTree E) (sched : StateRoot.Schedule) (block : Block) (witness : ExecutionWitness) :
    Prop :=
  (t.DescendantsPass sched block witness ∧ t'.DescendantsPass sched block witness) ∨
    ∃ fatal, t.DescendantsFail sched block witness fatal ∧ t'.DescendantsFail sched block witness fatal

variable {t t' : EngineTree E} {sched : StateRoot.Schedule} {b : Block} {w : ExecutionWitness}
  {x : Block × ExecutionWitness} {fatal : InsertBlockFatalError}

theorem fatalError_some : t.fatalError sched x = some fatal ↔ t.FatallyRefuses sched x fatal := by
  unfold fatalError
  constructor
  · intro h
    cases hr : (t.insertBlock sched x.1 (some x.2)).1 with
    | ok result =>
      rw [hr] at h
      cases h
    | error kind =>
      rw [hr] at h
      refine ⟨kind, insertBlock_error hr, ?_⟩
      simp only at h
      cases he : E.ensureValidationError kind with
      | ok text => simp [he] at h
      | error other =>
        rw [he] at h
        cases h
        rfl
  · rintro ⟨kind, hrefuses, he⟩
    rw [hrefuses.insertBlock]
    simp only [he]

theorem fatalError_none : t.fatalError sched x = none ↔ ∀ fatal, ¬ t.FatallyRefuses sched x fatal := by
  rw [Option.eq_none_iff_forall_ne_some]
  exact forall_congr' fun fatal => not_congr fatalError_some

theorem firstFatal_none (blocks : List (Block × ExecutionWitness)) (t : EngineTree E) :
    firstFatal sched blocks t = none ↔ NoneFatal sched blocks t := by
  induction blocks generalizing t with
  | nil => simp [firstFatal, NoneFatal]
  | cons x blocks ih =>
    simp only [firstFatal, NoneFatal, ← fatalError_none]
    cases hx : t.fatalError sched x with
    | some fatal => simp
    | none => simp [ih]

theorem firstFatal_some (blocks : List (Block × ExecutionWitness)) (t : EngineTree E) :
    firstFatal sched blocks t = some fatal ↔ FirstFatal sched fatal blocks t := by
  induction blocks generalizing t with
  | nil => simp [firstFatal, FirstFatal]
  | cons x blocks ih =>
    simp only [firstFatal, FirstFatal, ← fatalError_some]
    cases hx : t.fatalError sched x with
    | some other => simp
    | none => simp [ih]

theorem replayError_none : t.replayError sched b w = none ↔ t.DescendantsPass sched b w := firstFatal_none _ _

theorem replayError_some : t.replayError sched b w = some fatal ↔ t.DescendantsFail sched b w fatal :=
  firstFatal_some _ _

theorem replayError_alike :
    t.replayError sched b w = t'.replayError sched b w ↔ t.DescendantsAlike t' sched b w := by
  unfold DescendantsAlike
  rw [← replayError_none, ← replayError_none]
  simp only [← replayError_some]
  cases t.replayError sched b w with
  | none => simp [eq_comm]
  | some fatal => simp [eq_comm]

/-! ## Two trees -/

/-- the trees agree on the store, the sync target, the invalid header cache, and every buffered block that is not a
descendant of `hash` in either -/
structure DiffersBelow (hash : B256) (t t' : EngineTree E) : Prop where
  provider : t'.provider = t.provider
  tracker : t'.forkchoiceStateTracker = t.forkchoiceStateTracker
  cache : t'.invalidHeaders = t.invalidHeaders
  blocks : ∀ h, ¬ BlockBuffer.Under t.blockBuffer hash h → ¬ BlockBuffer.Under t'.blockBuffer hash h →
    t'.blockBuffer.blocks.get h = t.blockBuffer.blocks.get h

/-- buffered blocks are stored under their hash, and none is its own descendant -/
def BufferOk (t : EngineTree E) : Prop := t.blockBuffer.Keyed ∧ t.blockBuffer.Acyclic

theorem DiffersBelow.lowestBufferedAncestorOr {hash : B256} (h : DiffersBelow hash t t') (ht : t.BufferOk)
    (ht' : t'.BufferOk) : t'.lowestBufferedAncestorOr hash = t.lowestBufferedAncestorOr hash := by
  have hsame := h.blocks hash (ht.2 hash) (ht'.2 hash)
  cases hb : t.blockBuffer.blocks.get hash with
  | none =>
    rw [hb] at hsame
    simp only [EngineTree.lowestBufferedAncestorOr, BlockBuffer.lowestAncestor, hb, hsame, Option.map_none]
  | some b =>
    rw [hb] at hsame
    obtain ⟨l, hl, hlow⟩ := BlockBuffer.lowestAncestor_lowest ht.1 ht.2 hb
    obtain ⟨l', hl', hlow'⟩ := BlockBuffer.lowestAncestor_lowest ht'.1 ht'.2 hsame
    have hbh := ht.1 hash b hb
    have hmoved : t'.blockBuffer.Lowest b l := by
      apply hlow.transfer ht.1 h.blocks
      · rw [hbh]
        exact hb
      · rw [hbh]
        exact ht.2 hash
      · rw [hbh]
        exact ht'.2 hash
    simp only [EngineTree.lowestBufferedAncestorOr, hl, hl', hmoved.unique hlow']

/-- whether a block is inserted as valid is up to the store -/
theorem insertBlock_valid_congr (hp : t'.provider = t.provider)
    (hv : (t.insertBlock sched b (some w)).1 = .ok (.inserted .valid)) :
    (t'.insertBlock sched b (some w)).1 = .ok (.inserted .valid) := by
  have hexecute : ∀ parent, t'.executeBlock sched b parent w = t.executeBlock sched b parent w := by
    intro parent
    simp only [executeBlock, hp]
  simp only [insertBlock, tryInsertBlock] at hv ⊢
  rw [hp]
  by_cases hs : (t.provider.sealedHeader b.hash).isSome = true
  · rw [if_pos hs] at hv
    cases hv
  · rw [if_neg hs] at hv ⊢
    cases hval : validateBlock E b with
    | error error =>
      rw [hval] at hv
      cases hv
    | ok _ =>
      rw [hval] at hv
      cases hpar : t.provider.sealedHeader b.parentHash with
      | none =>
        rw [hpar] at hv
        cases hv
      | some parent =>
        rw [hpar] at hv
        simp only [hexecute] at hv ⊢
        cases hag : E.consensus.validateHeaderAgainstParent b.toSealedHeader { parent with hash := b.parentHash } with
        | error error =>
          rw [hag] at hv
          cases hv
        | ok _ =>
          rw [hag] at hv
          cases hex : t.executeBlock sched b parent w with
          | error kind =>
            rw [hex] at hv
            cases hv
          | ok _ => rfl

theorem DiffersBelow.lookupInvalid {hash : B256} (h : DiffersBelow hash t t') (check : B256) :
    t'.lookupInvalid check = t.lookupInvalid check := by
  simp only [EngineTree.lookupInvalid, h.cache]

theorem DiffersBelow.validAnswer {hash : B256} (h : DiffersBelow hash t t') : t'.validAnswer b = t.validAnswer b := by
  simp only [EngineTree.validAnswer, isSyncTargetHead_congr h.tracker]

/-- a fatal error is no answer about the block, and different errors are different answers -/
theorem elim_answer_inj (r r' : Option InsertBlockFatalError) :
    r.elim (t.validAnswer b) .error = r'.elim (t.validAnswer b) .error ↔ r = r' := by
  cases r with
  | none => cases r' <;> simp [EngineTree.validAnswer]
  | some fatal => cases r' <;> simp [EngineTree.validAnswer]

theorem elim_validAnswer (r : Option InsertBlockFatalError) :
    r.elim (t.validAnswer b) .error = t.validAnswer b ↔ r = none := elim_answer_inj r none

/-! ## A rejection on account of the cache -/

/-- both trees reject the block, and with the same status -/
theorem DiffersBelow.rejected {check hash : B256} (h : DiffersBelow hash t t') {header : BlockWithParent}
    (hh : t.lookupInvalid check = some header) {mw mw' : Option ExecutionWitness} {r r' : Answer}
    {t₁ t₁' : EngineTree E} (hr : Judges t sched check b mw r t₁) (hr' : Judges t' sched check b mw' r' t₁') :
    r = r' ∧ ∃ status, r = .ok (TreeOutcome.new status) ∧ status.IsInvalid := by
  have hh' : t'.lookupInvalid check = some header := by rw [h.lookupInvalid]; exact hh
  have hanswer : ∀ {t t₁ : EngineTree E} {mw : Option ExecutionWitness} {r : Answer},
      t.lookupInvalid check = some header → Judges t sched check b mw r t₁ →
        r = .ok (TreeOutcome.new ((t.afterLookup check).prepareInvalidResponse header.parent).1) := by
    intro t t₁ mw r hh hr
    cases hr with
    | rejected other hother =>
      cases hh.symm.trans hother
      rfl
    | failed kind text hn => cases hn.symm.trans hh
    | passed hn => cases hn.symm.trans hh
  have hprovider : (t'.afterLookup check).provider = (t.afterLookup check).provider := h.provider
  have hcache : (t'.afterLookup check).invalidHeaders = (t.afterLookup check).invalidHeaders := by
    simp only [afterLookup, withCache, h.cache]
  have hsame := prepareInvalidResponse_congr hprovider hcache header.parent
  rw [hanswer hh hr, hanswer hh' hr', hsame]
  exact ⟨rfl, _, rfl, _, rfl⟩

/-! ## The verdict -/

theorem validAnswer_ne {status : PayloadStatus} (h : status.IsInvalid) :
    (.ok (TreeOutcome.new status) : Answer) ≠ t.validAnswer b := by
  obtain ⟨error, herror⟩ := h
  intro heq
  simp only [validAnswer, TreeOutcome.new, Except.ok.injEq, TreeOutcome.mk.injEq] at heq
  rw [heq.1] at herror
  cases herror

/-- **Verdicts and buffered descendants.** Take a block whose insertion yields valid. The answer about it, from a
payload or from a download, is VALID with its own hash and makes it canonical if it is the sync target, exactly when its
check hash is not found in the invalid header cache and no descendant connected after it is refused fatally. Two trees
that differ only below the block give the same answer exactly when the check hash is found, or their descendants of the
block all pass, or the first ones that are refused fatally are refused with the same error. -/
theorem verdict_iff (t : EngineTree E) (sched : StateRoot.Schedule) (b : Block) (w : ExecutionWitness)
    (hv : (t.insertBlock sched b (some w)).1 = .ok (.inserted .valid)) :
    (∀ payload, E.validator.ensureWellFormedPayload payload = .ok b →
      ((t.onNewPayload sched payload (some w)).1 = t.validAnswer b ↔
          t.lookupInvalid (t.payloadCheck b) = none ∧ t.DescendantsPass sched b w) ∧
        ∀ t', DiffersBelow b.hash t t' → t.BufferOk → t'.BufferOk →
          ((t.onNewPayload sched payload (some w)).1 = (t'.onNewPayload sched payload (some w)).1 ↔
            t.lookupInvalid (t.payloadCheck b) ≠ none ∨ t.DescendantsAlike t' sched b w)) ∧
      ((t.onDownloadedBlock sched b w).1 = t.validAnswer b ↔
          t.lookupInvalid (t.lowestBufferedAncestorOr b.hash) = none ∧ t.DescendantsPass sched b w) ∧
        ∀ t', DiffersBelow b.hash t t' → t.BufferOk → t'.BufferOk →
          ((t.onDownloadedBlock sched b w).1 = (t'.onDownloadedBlock sched b w).1 ↔
            t.lookupInvalid (t.lowestBufferedAncestorOr b.hash) ≠ none ∨ t.DescendantsAlike t' sched b w) := by
  have hown : ∀ {check : B256} {r : Answer} {t₁ : EngineTree E}, Judges t sched check b (some w) r t₁ →
      (t.lookupInvalid check = none → r = (t.replayError sched b w).elim (t.validAnswer b) .error) →
        (r = t.validAnswer b ↔ t.lookupInvalid check = none ∧ t.DescendantsPass sched b w) := by
    intro check r t₁ hr hpass
    cases hn : t.lookupInvalid check with
    | none =>
      rw [hpass hn, elim_validAnswer, replayError_none]
      simp
    | some header =>
      have hsame : DiffersBelow b.hash t t := ⟨rfl, rfl, rfl, fun _ _ _ => rfl⟩
      obtain ⟨-, status, rfl, hinvalid⟩ := hsame.rejected hn hr hr
      simp [validAnswer_ne hinvalid]
  have htwo : ∀ {t' : EngineTree E} {check : B256} {r r' : Answer} {t₁ t₁' : EngineTree E}, DiffersBelow b.hash t t' →
      Judges t sched check b (some w) r t₁ → Judges t' sched check b (some w) r' t₁' →
      (t.lookupInvalid check = none → r = (t.replayError sched b w).elim (t.validAnswer b) .error) →
      (t'.lookupInvalid check = none → r' = (t'.replayError sched b w).elim (t'.validAnswer b) .error) →
        (r = r' ↔ t.lookupInvalid check ≠ none ∨ t.DescendantsAlike t' sched b w) := by
    intro t' check r r' t₁ t₁' hd hr hr' hpass hpass'
    cases hn : t.lookupInvalid check with
    | none =>
      rw [hpass hn, hpass' ((hd.lookupInvalid check).trans hn), hd.validAnswer, elim_answer_inj, replayError_alike]
      simp
    | some header => simp [(hd.rejected hn hr hr').1]
  refine ⟨fun payload hw => ⟨?_, fun t' hd ht ht' => ?_⟩, ?_, fun t' hd ht ht' => ?_⟩
  · exact hown (onNewPayload_judges t sched (some w) hw) fun hn => onNewPayload_answer hw hn hv
  · have hcheck : t'.payloadCheck b = t.payloadCheck b := by
      simp only [payloadCheck, hd.lowestBufferedAncestorOr ht ht']
    have hjudges' := onNewPayload_judges t' sched (some w) hw
    rw [hcheck] at hjudges'
    refine htwo hd (onNewPayload_judges t sched (some w) hw) hjudges' (fun hn => onNewPayload_answer hw hn hv)
      fun hn => ?_
    exact onNewPayload_answer hw (by rw [hcheck]; exact hn) (insertBlock_valid_congr hd.provider hv)
  · exact hown (onDownloadedBlock_judges t sched b w) fun hn => onDownloadedBlock_answer hn hv
  · have hcheck := hd.lowestBufferedAncestorOr ht ht'
    have hjudges' := onDownloadedBlock_judges t' sched b w
    rw [hcheck] at hjudges'
    refine htwo hd (onDownloadedBlock_judges t sched b w) hjudges' (fun hn => onDownloadedBlock_answer hn hv)
      fun hn => ?_
    exact onDownloadedBlock_answer (by rw [hcheck]; exact hn) (insertBlock_valid_congr hd.provider hv)

/-! ## A child with a junk witness -/

/-- the tree of a new node -/
def newTree (E : Env) : EngineTree E := launch E ⟨∅, none, none⟩ Chain.twoBranches.genesis

/-- the same with a child of block 2 in the buffer, with a junk witness -/
def junkChild (E : Env) : EngineTree E :=
  Run.run step (newTree E) [.bufferBlock (Chain.mainBlock 2), .bufferWitness 3 junkWitness ∅]

theorem junkChild_blocks {E : Env} {h : B256} {b : Block} (hb : (junkChild E).blockBuffer.blocks.get h = some b) :
    h = 3 ∧ b = Chain.mainBlock 2 := by
  have hset : (junkChild E).blockBuffer.blocks.get h =
      if h = 3 then some (Chain.mainBlock 2) else (FMap.get (∅ : FMap B256 Block) h) := FMap.get_set _ _ _ _
  rw [hset] at hb
  split_ifs at hb with hh
  · exact ⟨hh, (Option.some.inj hb).symm⟩
  · simp at hb

theorem newTree_blocks (E : Env) (h : B256) : (newTree E).blockBuffer.blocks.get h = none := by
  simp [newTree, launch, EngineTree.new, BlockBuffer.new]

theorem newTree_bufferOk (E : Env) : (newTree E).BufferOk := by
  refine ⟨fun h b hb => ?_, fun h hu => ?_⟩
  · rw [newTree_blocks] at hb
    cases hb
  · cases hu with
    | child hb => rw [newTree_blocks] at hb; cases hb
    | deeper hb => rw [newTree_blocks] at hb; cases hb

theorem junkChild_bufferOk (E : Env) : (junkChild E).BufferOk := by
  refine ⟨fun h b hb => ?_, fun h hu => ?_⟩
  · obtain ⟨rfl, rfl⟩ := junkChild_blocks hb
    rfl
  · cases hu with
    | child hb hp =>
      obtain ⟨rfl, rfl⟩ := junkChild_blocks hb
      exact absurd hp (by decide)
    | deeper hb hu =>
      obtain ⟨rfl, rfl⟩ := junkChild_blocks hb
      -- block 2, the parent, is not buffered
      cases hu with
      | child hb' => exact absurd (junkChild_blocks hb').1 (by decide)
      | deeper hb' => exact absurd (junkChild_blocks hb').1 (by decide)

theorem junkChild_differs (E : Env) : DiffersBelow 2 (newTree E) (junkChild E) := by
  refine ⟨rfl, rfl, rfl, fun h _ hn => ?_⟩
  rw [newTree_blocks]
  cases hb : (junkChild E).blockBuffer.blocks.get h with
  | none => rfl
  | some b =>
    obtain ⟨rfl, rfl⟩ := junkChild_blocks hb
    exact absurd (BlockBuffer.Under.child hb rfl) hn

/-- a junk witness with which the child is merely invalid does not change the answer -/
theorem verdict_iff_invalid_child :
    ((newTree smallEnv).onNewPayload StateRoot.sortedSchedule (Chain.mainBlock 1, none) (some smallWitness)).1 =
        (newTree smallEnv).validAnswer (Chain.mainBlock 1) ∧
      ((newTree smallEnv).onNewPayload StateRoot.sortedSchedule (Chain.mainBlock 1, none) (some smallWitness)).1 =
        ((junkChild smallEnv).onNewPayload StateRoot.sortedSchedule (Chain.mainBlock 1, none)
          (some smallWitness)).1 := by
  have hv : ((newTree smallEnv).insertBlock StateRoot.sortedSchedule (Chain.mainBlock 1) (some smallWitness)).1 =
      .ok (.inserted .valid) := by decide +kernel
  have hn : (newTree smallEnv).lookupInvalid ((newTree smallEnv).payloadCheck (Chain.mainBlock 1)) = none := by
    decide +kernel
  have hnew : (newTree smallEnv).DescendantsPass StateRoot.sortedSchedule (Chain.mainBlock 1) smallWitness :=
    replayError_none.1 (by decide +kernel)
  have hjunk : (junkChild smallEnv).DescendantsPass StateRoot.sortedSchedule (Chain.mainBlock 1) smallWitness :=
    replayError_none.1 (by decide +kernel)
  obtain ⟨hvalid, htwo⟩ := (verdict_iff (newTree smallEnv) StateRoot.sortedSchedule (Chain.mainBlock 1) smallWitness
    hv).1 (Chain.mainBlock 1, none) rfl
  exact ⟨hvalid.2 ⟨hn, hnew⟩, (htwo _ (junkChild_differs smallEnv) (newTree_bufferOk smallEnv)
    (junkChild_bufferOk smallEnv)).2 (Or.inr (Or.inl ⟨hnew, hjunk⟩))⟩

/-- a junk witness that cannot be revealed turns VALID into a fatal error -/
theorem verdict_lost_to_child :
    ((junkChild strictEnv).insertBlock StateRoot.sortedSchedule (Chain.mainBlock 1) (some smallWitness)).1 =
        .ok (.inserted .valid) ∧
      (junkChild strictEnv).lookupInvalid ((junkChild strictEnv).payloadCheck (Chain.mainBlock 1)) = none ∧
      ((junkChild strictEnv).onNewPayload StateRoot.sortedSchedule (Chain.mainBlock 1, none) (some smallWitness)).1 ≠
        (junkChild strictEnv).validAnswer (Chain.mainBlock 1) ∧
      DiffersBelow (Chain.mainBlock 1).hash (newTree strictEnv) (junkChild strictEnv) ∧
      ((newTree strictEnv).onNewPayload StateRoot.sortedSchedule (Chain.mainBlock 1, none) (some smallWitness)).1 ≠
        ((junkChild strictEnv).onNewPayload StateRoot.sortedSchedule (Chain.mainBlock 1, none)
          (some smallWitness)).1 := by
  have hv : ((junkChild strictEnv).insertBlock StateRoot.sortedSchedule (Chain.mainBlock 1) (some smallWitness)).1 =
      .ok (.inserted .valid) := by decide +kernel
  have hn : (junkChild strictEnv).lookupInvalid ((junkChild strictEnv).payloadCheck (Chain.mainBlock 1)) = none := by
    decide +kernel
  have hanswer : (((junkChild strictEnv).onNewPayload StateRoot.sortedSchedule (Chain.mainBlock 1, none)
      (some smallWitness)).1.isOk) = false := by decide +kernel
  have hnew : (((newTree strictEnv).onNewPayload StateRoot.sortedSchedule (Chain.mainBlock 1, none)
      (some smallWitness)).1.isOk) = true := by decide +kernel
  refine ⟨hv, hn, ?_, junkChild_differs strictEnv, ?_⟩
  · intro h
    rw [h] at hanswer
    cases hanswer
  · intro h
    rw [h, hanswer] at hnew
    cases hnew

end EngineTree

end Ress
