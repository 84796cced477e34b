/-
What each operation of the engine tree can do, said once; every invariant is derived from these lemmas.

- `Forgets`: a lookup in the invalid header cache changes nothing but the cache, and invents no entry.
- `Inserts`: the five outcomes of `insert_block`.
- `Fails`: what a failed insertion records.
- `Connects`: the loop over the buffered descendants.
- `Receives`: a block handed to `on_new_payload` or `on_downloaded_block`, with the hash `check` that is looked up in the
  invalid header cache first. The two functions differ in `check` and in what they do with a block already seen.
- `Keeps`: the rule by which a property of the tree is carried through all of these.
- `Updates`: the exits of `on_forkchoice_updated`.
-/
import Ress.Tree.EngineTree

namespace Ress

namespace EngineTree

variable {E : Env}

/-! ## The invalid header cache -/

/-- the block recorded as invalid for a hash -/
def invalidHeader (t : EngineTree E) (hash : B256) : Option BlockWithParent :=
  (E.cache.entries t.invalidHeaders).get hash

/-- the answer of a lookup of the hash -/
def lookupInvalid (t : EngineTree E) (hash : B256) : Option BlockWithParent := (E.cache.get t.invalidHeaders hash).1

/-- only the invalid header cache changes, and it gets no new entry -/
structure Forgets (t t' : EngineTree E) : Prop where
  same : t' = { t with invalidHeaders := t'.invalidHeaders }
  sub : ∀ h x, t'.invalidHeader h = some x → t.invalidHeader h = some x

variable {t t' t'' : EngineTree E}

theorem Forgets.rfl' (t : EngineTree E) : Forgets t t := ⟨rfl, fun _ _ h => h⟩

theorem Forgets.trans (h : Forgets t t') (h' : Forgets t' t'') : Forgets t t'' := by
  refine ⟨?_, fun k x hk => h.sub k x (h'.sub k x hk)⟩
  have h1 := h.same
  have h2 := h'.same
  rw [h1] at h2
  exact h2

theorem Forgets.provider (h : Forgets t t') : t'.provider = t.provider := by rw [h.same]

theorem Forgets.blockBuffer (h : Forgets t t') : t'.blockBuffer = t.blockBuffer := by rw [h.same]

theorem Forgets.canonicalHead (h : Forgets t t') : t'.canonicalHead = t.canonicalHead := by rw [h.same]

theorem Forgets.chain (h : Forgets t t') : t'.chain = t.chain := by rw [h.same]; rfl

theorem lookupInvalid_some {hash : B256} {header : BlockWithParent} (h : t.lookupInvalid hash = some header) :
    t.invalidHeader hash = some header := E.cache.get_entry t.invalidHeaders hash header h

theorem get_forgets (t : EngineTree E) (hash : B256) :
    Forgets t { t with invalidHeaders := (E.cache.get t.invalidHeaders hash).2 } :=
  ⟨rfl, fun k x hk => E.cache.get_forgets t.invalidHeaders hash k x hk⟩

theorem latestValidLoop_sub (t : EngineTree E) (fuel : ℕ) (cache : E.cache.Cache) (current : Option BlockWithParent)
    (k : B256) (x : BlockWithParent)
    (hk : (E.cache.entries (t.latestValidLoop fuel cache current).2).get k = some x) :
    (E.cache.entries cache).get k = some x := by
  induction fuel generalizing cache current with
  | zero => exact hk
  | succ fuel ih =>
    cases current with
    | none => exact hk
    | some current =>
      unfold latestValidLoop at hk
      simp only at hk
      split_ifs at hk
      · exact E.cache.get_forgets cache current.parent k x hk
      · exact E.cache.get_forgets cache current.parent k x (ih _ _ hk)

theorem latestValidHash_forgets (t : EngineTree E) (parentHash : B256) :
    Forgets t (t.latestValidHashForInvalidPayload parentHash).2 := by
  unfold latestValidHashForInvalidPayload
  split_ifs
  · exact Forgets.rfl' t
  · refine ⟨rfl, fun k x hk => ?_⟩
    exact E.cache.get_forgets t.invalidHeaders parentHash k x (latestValidLoop_sub t _ _ _ k x hk)

theorem prepareInvalidResponse_forgets (t : EngineTree E) (parentHash : B256) :
    Forgets t (t.prepareInvalidResponse parentHash).2 :=
  latestValidHash_forgets t (t.invalidResponseParent parentHash)

/-- looking up an ancestor: an answer comes from an entry of the cache -/
theorem checkInvalidAncestor_cases (t : EngineTree E) (head : B256) :
    Forgets t (t.checkInvalidAncestor head).2 ∧
      ((t.checkInvalidAncestor head).1 = none ∨
        ∃ header status, t.invalidHeader head = some header ∧ (t.checkInvalidAncestor head).1 = some status ∧
          status.status = .invalid .linksToRejectedPayload) := by
  have hget := get_forgets t head
  unfold checkInvalidAncestor
  cases hc : E.cache.get t.invalidHeaders head with
  | mk found cache =>
    rw [hc] at hget
    cases found with
    | none => exact ⟨hget, Or.inl rfl⟩
    | some header =>
      refine ⟨hget.trans (prepareInvalidResponse_forgets _ header.parent), Or.inr ⟨header, _, ?_, rfl, rfl⟩⟩
      exact E.cache.get_entry t.invalidHeaders head header (by rw [hc])

/-- the same with a head: an answer also records the head, under the entry found -/
theorem checkInvalidAncestorWithHead_cases (t : EngineTree E) (check head : B256) :
    (t.lookupInvalid check = none ∧ (t.checkInvalidAncestorWithHead check head).1 = none ∧
        Forgets t (t.checkInvalidAncestorWithHead check head).2) ∨
      ∃ header status t₁, t.lookupInvalid check = some header ∧
        (t.checkInvalidAncestorWithHead check head).1 = some status ∧
        status.status = .invalid .linksToRejectedPayload ∧ Forgets t t₁ ∧
        (t.checkInvalidAncestorWithHead check head).2 =
          { t₁ with invalidHeaders := E.cache.insertWithInvalidAncestor t₁.invalidHeaders head header } := by
  have hget := get_forgets t check
  unfold checkInvalidAncestorWithHead lookupInvalid
  cases hc : E.cache.get t.invalidHeaders check with
  | mk found cache =>
    rw [hc] at hget
    cases found with
    | none => exact Or.inl ⟨rfl, rfl, hget⟩
    | some header =>
      exact Or.inr ⟨header, _, _, rfl, rfl, rfl, hget.trans (prepareInvalidResponse_forgets _ header.parent), rfl⟩

/-! ## A failed insertion -/

/-- a validation error is recorded in the cache; a fatal error leaves the tree as it is -/
inductive Fails (t : EngineTree E) (block : Block) (kind : InsertBlockErrorKind) :
    Except InsertBlockFatalError PayloadStatus → EngineTree E → Prop
  | fatal (fatal : InsertBlockFatalError) (h : E.ensureValidationError kind = .error fatal) :
      Fails t block kind (.error fatal) t
  | invalid (text : String) (h : E.ensureValidationError kind = .ok text) (latestValidHash : Option B256)
      (t₁ : EngineTree E) (hf : Forgets t t₁) :
      Fails t block kind (.ok ⟨.invalid (.insertBlock text), latestValidHash⟩)
        { t₁ with invalidHeaders := E.cache.insert t₁.invalidHeaders block.blockWithParent }

theorem onInsertBlockError_fails (t : EngineTree E) (block : Block) (kind : InsertBlockErrorKind) :
    Fails t block kind (t.onInsertBlockError block kind).1 (t.onInsertBlockError block kind).2 := by
  unfold onInsertBlockError
  cases h : E.ensureValidationError kind with
  | error fatal => exact Fails.fatal fatal h
  | ok text => exact Fails.invalid text h _ _ (latestValidHash_forgets t block.parentHash)

/-! ## Inserting one block -/

/-- the history after a call -/
def note (t : EngineTree E) (block : Block) (mw : Option ExecutionWitness)
    (result : Except InsertBlockErrorKind InsertPayloadOk) : EngineTree E :=
  { t with insertions := t.insertions ++ [⟨block, mw, t.provider.database.bytecodes.keys, result⟩] }

/-- the buffer with the block of a call and its witness, if it came with one -/
def bufferWith (t : EngineTree E) (block : Block) (mw : Option ExecutionWitness) : BlockBuffer :=
  match mw with
  | some witness => (t.blockBuffer.insertWitness block.hash witness ∅).insertBlock block
  | none => t.blockBuffer.insertBlock block

/-- the parent is stored, and the header passes the check against it -/
def ParentOk (t : EngineTree E) (block : Block) : Prop :=
  ∃ p, t.provider.chainState.blocksByHash.get block.parentHash = some p ∧ block.number = p.number + 1

inductive Inserts (t : EngineTree E) (block : Block) (mw : Option ExecutionWitness) :
    Except InsertBlockErrorKind InsertPayloadOk → EngineTree E → Prop
  | alreadySeen (h : t.Stored block.hash) : Inserts t block mw (.ok .alreadySeen) (t.note block mw (.ok .alreadySeen))
  | refused (kind : InsertBlockErrorKind) (h : ¬ t.Stored block.hash) :
      Inserts t block mw (.error kind) (t.note block mw (.error kind))
  | disconnected (head missing : BlockNumHash) (h : ¬ t.Stored block.hash) (hp : ¬ t.Stored block.parentHash) :
      Inserts t block mw (.ok (.inserted (.disconnected head missing)))
        (note { t with blockBuffer := t.bufferWith block mw } block mw (.ok (.inserted (.disconnected head missing))))
  | noWitness (hmw : mw = none) (h : ¬ t.Stored block.hash) (hp : t.ParentOk block) :
      Inserts t block mw (.ok (.inserted .noWitness))
        (note { t with blockBuffer := t.blockBuffer.insertBlock block } block mw (.ok (.inserted .noWitness)))
  | valid (witness : ExecutionWitness) (hmw : mw = some witness) (h : ¬ t.Stored block.hash) (hp : t.ParentOk block)
      (event : BeaconConsensusEngineEvent) :
      Inserts t block mw (.ok (.inserted .valid))
        (note (({ t with provider := t.provider.insertBlock block (some witness.stateWitness) } : EngineTree E).emitEvent
          event) block mw (.ok (.inserted .valid)))

theorem insertBlock_inserts (t : EngineTree E) (sched : StateRoot.Schedule) (block : Block)
    (mw : Option ExecutionWitness) :
    Inserts t block mw (t.insertBlock sched block mw).1 (t.insertBlock sched block mw).2 := by
  have hstored : ∀ h, (t.provider.sealedHeader h).isSome = true ↔ t.Stored h := fun h => ChainState.sealedHeader_isSome
  unfold insertBlock tryInsertBlock
  by_cases hs : (t.provider.sealedHeader block.hash).isSome = true
  · rw [if_pos hs]
    exact Inserts.alreadySeen ((hstored _).1 hs)
  · rw [if_neg hs]
    have hns : ¬ t.Stored block.hash := fun h => hs ((hstored _).2 h)
    cases validateBlock E block with
    | error error => exact Inserts.refused _ hns
    | ok _ =>
      simp only
      cases hp : t.provider.sealedHeader block.parentHash with
      | none =>
        have hnp : ¬ t.Stored block.parentHash := ChainState.sealedHeader_none.1 hp
        cases mw with
        | none => exact Inserts.disconnected _ _ hns hnp
        | some w => exact Inserts.disconnected _ _ hns hnp
      | some parent =>
        simp only
        cases ha : E.consensus.validateHeaderAgainstParent block.toSealedHeader
            { parent with hash := block.parentHash } with
        | error error => exact Inserts.refused _ hns
        | ok u =>
          have hpar : t.ParentOk block := by
            obtain ⟨p, hg, hph⟩ := ChainState.sealedHeader_some.1 hp
            refine ⟨p, hg, ?_⟩
            rw [(E.consensus.against_parent _ _ ha).2, ← hph]
          cases mw with
          | none => exact Inserts.noWitness rfl hns hpar
          | some w =>
            simp only
            cases t.executeBlock sched block parent w with
            | error kind => exact Inserts.refused _ hns
            | ok _ => exact Inserts.valid w rfl hns hpar _

/-- the history is longer by the call -/
theorem Inserts.insertions {block : Block} {mw : Option ExecutionWitness}
    {r : Except InsertBlockErrorKind InsertPayloadOk} (hi : Inserts t block mw r t') :
    t'.insertions = t.insertions ++ [⟨block, mw, t.provider.database.bytecodes.keys, r⟩] := by
  cases hi <;> rfl

/-! ## The loop over buffered descendants -/

inductive Connects : List (Block × ExecutionWitness) → EngineTree E → Except InsertBlockFatalError Unit →
    EngineTree E → Prop
  | nil (t : EngineTree E) : Connects [] t (.ok ()) t
  | inserted {child : Block} {w : ExecutionWitness} {blocks : List (Block × ExecutionWitness)} {t t₁ t₂ : EngineTree E}
      {result : InsertPayloadOk} {r : Except InsertBlockFatalError Unit} (hi : Inserts t child (some w) (.ok result) t₁)
      (hc : Connects blocks t₁ r t₂) : Connects ((child, w) :: blocks) t r t₂
  | target {child : Block} {w : ExecutionWitness} {blocks : List (Block × ExecutionWitness)} {t t₁ t₂ : EngineTree E}
      {r : Except InsertBlockFatalError Unit} (hi : Inserts t child (some w) (.ok (.inserted .valid)) t₁)
      (hc : Connects blocks (t₁.makeCanonical child.hash) r t₂) : Connects ((child, w) :: blocks) t r t₂
  | failed {child : Block} {w : ExecutionWitness} {blocks : List (Block × ExecutionWitness)} {t t₁ t₂ t₃ : EngineTree E}
      {kind : InsertBlockErrorKind} {status : PayloadStatus} {r : Except InsertBlockFatalError Unit}
      (hi : Inserts t child (some w) (.error kind) t₁) (hf : Fails t₁ child kind (.ok status) t₂)
      (hc : Connects blocks t₂ r t₃) : Connects ((child, w) :: blocks) t r t₃
  | fatal {child : Block} {w : ExecutionWitness} {blocks : List (Block × ExecutionWitness)} {t t₁ t₂ : EngineTree E}
      {kind : InsertBlockErrorKind} {fatal : InsertBlockFatalError} (hi : Inserts t child (some w) (.error kind) t₁)
      (hf : Fails t₁ child kind (.error fatal) t₂) : Connects ((child, w) :: blocks) t (.error fatal) t₂

theorem connectBlocks_connects (sched : StateRoot.Schedule) (blocks : List (Block × ExecutionWitness))
    (t : EngineTree E) : Connects blocks t (connectBlocks sched blocks t).1 (connectBlocks sched blocks t).2 := by
  induction blocks generalizing t with
  | nil => exact Connects.nil t
  | cons x blocks ih =>
    obtain ⟨child, w⟩ := x
    have hi := insertBlock_inserts t sched child (some w)
    unfold connectBlocks
    cases hr : t.insertBlock sched child (some w) with
    | mk result t₁ =>
      rw [hr] at hi
      cases result with
      | ok result =>
        simp only
        split_ifs with hcond
        · obtain ⟨-, hv⟩ := hcond
          subst hv
          exact Connects.target hi (ih _)
        · exact Connects.inserted hi (ih _)
      | error kind =>
        have hf := onInsertBlockError_fails t₁ child kind
        simp only
        cases hr2 : t₁.onInsertBlockError child kind with
        | mk result2 t₂ =>
          rw [hr2] at hf
          cases result2 with
          | error fatal => exact Connects.fatal hi hf
          | ok status => exact Connects.failed hi hf (ih _)

/-- the descendants taken out of the buffer for a parent -/
def takenFor (t : EngineTree E) (ord : Enumeration B256) (parentHash : B256) : List (Block × ExecutionWitness) :=
  (BlockBuffer.removeBlockWithChildren ord t.blockBuffer parentHash).1

/-- the tree without them -/
def takeFor (t : EngineTree E) (ord : Enumeration B256) (parentHash : B256) : EngineTree E :=
  { t with blockBuffer := (BlockBuffer.removeBlockWithChildren ord t.blockBuffer parentHash).2 }

theorem tryConnect_connects (t : EngineTree E) (sched : StateRoot.Schedule) (parentHash : B256) :
    Connects (t.takenFor sched.order parentHash) (t.takeFor sched.order parentHash)
      (t.tryConnectBufferedBlocks sched parentHash).1 (t.tryConnectBufferedBlocks sched parentHash).2 :=
  connectBlocks_connects sched _ _

/-! ## Receiving a block -/

abbrev Answer := Except InsertBlockFatalError (TreeOutcome PayloadStatus)

/-- the event of an answer -/
def announced (answer : Answer) : Option TreeEvent := answer.toOption.bind (·.event)

/-- what happens to a block received with the check hash `check`; `ord` is the order in which descendants are taken -/
inductive Receives (ord : Enumeration B256) (t : EngineTree E) (check : B256) (block : Block)
    (mw : Option ExecutionWitness) : Answer → EngineTree E → Prop
  | rejected {t₁ : EngineTree E} {header : BlockWithParent} {status : PayloadStatus}
      (hh : t.lookupInvalid check = some header) (hs : status.status = .invalid .linksToRejectedPayload)
      (hf : Forgets t t₁) :
      Receives ord t check block mw (.ok (TreeOutcome.new status))
        { t₁ with invalidHeaders := E.cache.insertWithInvalidAncestor t₁.invalidHeaders block.hash header }
  | connected {t₁ t₂ t₃ : EngineTree E} {result : InsertPayloadOk} {event : Option TreeEvent}
      (hn : t.lookupInvalid check = none) (hf : Forgets t t₁)
      (hi : Inserts t₁ block mw (.ok result) t₂) (hr : result = .inserted .valid ∨ result = .alreadySeen)
      (hc : Connects (t₂.takenFor ord block.hash) (t₂.takeFor ord block.hash) (.ok ()) t₃) :
      Receives ord t check block mw (.ok ⟨⟨.valid, some block.hash⟩, event⟩) t₃
  | connectFailed {t₁ t₂ t₃ : EngineTree E} {result : InsertPayloadOk} {fatal : InsertBlockFatalError}
      (hn : t.lookupInvalid check = none) (hf : Forgets t t₁) (hi : Inserts t₁ block mw (.ok result) t₂)
      (hr : result = .inserted .valid ∨ result = .alreadySeen)
      (hc : Connects (t₂.takenFor ord block.hash) (t₂.takeFor ord block.hash) (.error fatal) t₃) :
      Receives ord t check block mw (.error fatal) t₃
  | seen {t₁ t₂ : EngineTree E} (hn : t.lookupInvalid check = none) (hf : Forgets t t₁)
      (hi : Inserts t₁ block mw (.ok .alreadySeen) t₂) :
      Receives ord t check block mw (.ok (TreeOutcome.new ⟨.valid, some block.hash⟩)) t₂
  | kept {t₁ t₂ : EngineTree E} {status : BlockStatus} {event : TreeEvent}
      (hn : t.lookupInvalid check = none) (hf : Forgets t t₁)
      (hi : Inserts t₁ block mw (.ok (.inserted status)) t₂) (hr : status ≠ .valid) :
      Receives ord t check block mw (.ok ⟨⟨.syncing, none⟩, some event⟩) t₂
  | failed {t₁ t₂ t₃ : EngineTree E} {kind : InsertBlockErrorKind} {status : PayloadStatus}
      (hn : t.lookupInvalid check = none) (hf : Forgets t t₁)
      (hi : Inserts t₁ block mw (.error kind) t₂) (hfail : Fails t₂ block kind (.ok status) t₃) :
      Receives ord t check block mw (.ok (TreeOutcome.new status)) t₃
  | fatal {t₁ t₂ t₃ : EngineTree E} {kind : InsertBlockErrorKind} {fatal : InsertBlockFatalError}
      (hn : t.lookupInvalid check = none) (hf : Forgets t t₁)
      (hi : Inserts t₁ block mw (.error kind) t₂) (hfail : Fails t₂ block kind (.error fatal) t₃) :
      Receives ord t check block mw (.error fatal) t₃

/-- the hash that `on_new_payload` looks up: the lowest buffered ancestor's parent, or the block's own parent -/
def payloadCheck (t : EngineTree E) (block : Block) : B256 :=
  if t.lowestBufferedAncestorOr block.hash = block.hash then block.parentHash
  else t.lowestBufferedAncestorOr block.hash

/-- a payload is malformed, or its block is received -/
theorem onNewPayload_cases (t : EngineTree E) (sched : StateRoot.Schedule) (payload : E.validator.ExecutionData)
    (mw : Option ExecutionWitness) :
    (∃ error status, E.validator.ensureWellFormedPayload payload = .error error ∧
        (t.onNewPayload sched payload mw).1 = .ok (TreeOutcome.new status) ∧
        status.status = .invalid (.malformedPayload error) ∧ Forgets t (t.onNewPayload sched payload mw).2) ∨
      ∃ block, E.validator.ensureWellFormedPayload payload = .ok block ∧
        Receives sched.order t (t.payloadCheck block) block mw (t.onNewPayload sched payload mw).1
          (t.onNewPayload sched payload mw).2 := by
  unfold onNewPayload
  cases hw : E.validator.ensureWellFormedPayload payload with
  | error error =>
    refine Or.inl ⟨error, _, rfl, rfl, rfl, ?_⟩
    simp only
    split_ifs
    · exact Forgets.rfl' t
    · exact latestValidHash_forgets t _
  | ok block =>
    refine Or.inr ⟨block, rfl, ?_⟩
    simp only
    rw [show (if t.lowestBufferedAncestorOr block.hash = block.hash then block.parentHash
      else t.lowestBufferedAncestorOr block.hash) = t.payloadCheck block from rfl]
    rcases checkInvalidAncestorWithHead_cases t (t.payloadCheck block) block.hash with
      ⟨hn, hnone, hf⟩ | ⟨header, status, t₁, hh, hsome, hs, hf, heq⟩
    · cases hc : t.checkInvalidAncestorWithHead (t.payloadCheck block) block.hash with
      | mk found t₁ =>
        rw [hc] at hnone hf
        simp only at hnone hf
        subst hnone
        simp only
        have hi := insertBlock_inserts t₁ sched block mw
        cases hr : t₁.insertBlock sched block mw with
        | mk result t₂ =>
          rw [hr] at hi
          have hc := tryConnect_connects t₂ sched block.hash
          have hfail := onInsertBlockError_fails t₂ block
          cases result with
          | error kind =>
            simp only
            cases hk : t₂.onInsertBlockError block kind with
            | mk answer t₃ =>
              have hfail := hfail kind
              rw [hk] at hfail
              cases answer with
              | error fatal => exact Receives.fatal hn hf hi hfail
              | ok status => exact Receives.failed hn hf hi hfail
          | ok result =>
            cases hk : t₂.tryConnectBufferedBlocks sched block.hash with
            | mk answer t₃ =>
              rw [hk] at hc
              cases result with
              | alreadySeen =>
                simp only [hk]
                cases answer with
                | error fatal => exact Receives.connectFailed hn hf hi (Or.inr rfl) hc
                | ok _ => exact Receives.connected hn hf hi (Or.inr rfl) hc
              | inserted status =>
                cases status with
                | valid =>
                  simp only [hk]
                  cases answer with
                  | error fatal => exact Receives.connectFailed hn hf hi (Or.inl rfl) hc
                  | ok _ => exact Receives.connected hn hf hi (Or.inl rfl) hc
                | disconnected head missing => exact Receives.kept hn hf hi (by simp)
                | noWitness => exact Receives.kept hn hf hi (by simp)
    · cases hc : t.checkInvalidAncestorWithHead (t.payloadCheck block) block.hash with
      | mk found t₂ =>
        rw [hc] at hsome heq
        simp only at hsome heq
        subst hsome heq
        exact Receives.rejected hh hs hf

/-- a downloaded block is received with its own hash, or its lowest buffered ancestor's parent, as the check hash -/
theorem onDownloadedBlock_receives (t : EngineTree E) (sched : StateRoot.Schedule) (block : Block)
    (witness : ExecutionWitness) :
    Receives sched.order t (t.lowestBufferedAncestorOr block.hash) block (some witness)
      (t.onDownloadedBlock sched block witness).1 (t.onDownloadedBlock sched block witness).2 := by
  unfold onDownloadedBlock
  rcases checkInvalidAncestorWithHead_cases t (t.lowestBufferedAncestorOr block.hash) block.hash with
    ⟨hn, hnone, hf⟩ | ⟨header, status, t₁, hh, hsome, hs, hf, heq⟩
  · cases hc : t.checkInvalidAncestorWithHead (t.lowestBufferedAncestorOr block.hash) block.hash with
    | mk found t₁ =>
      rw [hc] at hnone hf
      simp only at hnone hf
      subst hnone
      simp only
      have hi := insertBlock_inserts t₁ sched block (some witness)
      cases hr : t₁.insertBlock sched block (some witness) with
      | mk result t₂ =>
        rw [hr] at hi
        have hc := tryConnect_connects t₂ sched block.hash
        have hfail := onInsertBlockError_fails t₂ block
        cases result with
        | error kind =>
          simp only
          cases hk : t₂.onInsertBlockError block kind with
          | mk answer t₃ =>
            have hfail := hfail kind
            rw [hk] at hfail
            cases answer with
            | error fatal => exact Receives.fatal hn hf hi hfail
            | ok status => exact Receives.failed hn hf hi hfail
        | ok result =>
          cases result with
          | alreadySeen => exact Receives.seen hn hf hi
          | inserted status =>
            cases status with
            | valid =>
              simp only
              cases hk : t₂.tryConnectBufferedBlocks sched block.hash with
              | mk answer t₃ =>
                rw [hk] at hc
                cases answer with
                | error fatal => exact Receives.connectFailed hn hf hi (Or.inl rfl) hc
                | ok _ => exact Receives.connected hn hf hi (Or.inl rfl) hc
            | disconnected head missing => exact Receives.kept hn hf hi (by simp)
            | noWitness => exact Receives.kept hn hf hi (by simp)
  · cases hc : t.checkInvalidAncestorWithHead (t.lowestBufferedAncestorOr block.hash) block.hash with
    | mk found t₂ =>
      rw [hc] at hsome heq
      simp only at hsome heq
      subst hsome heq
      exact Receives.rejected hh hs hf

/-! ## What receiving a block keeps -/

/-- a property of the tree that does not look at the invalid header cache and is kept by inserting a block that meets
`Q`; the blocks taken out of the buffer meet `Q` -/
structure Keeps (P : EngineTree E → Prop) (Q : Block → Option ExecutionWitness → Prop) : Prop where
  cache : ∀ {t : EngineTree E} {cache : E.cache.Cache}, P t → P { t with invalidHeaders := cache }
  inserts : ∀ {t t' : EngineTree E} {block : Block} {mw : Option ExecutionWitness}
    {r : Except InsertBlockErrorKind InsertPayloadOk}, Q block mw → Inserts t block mw r t' → P t → P t'
  makeCanonical : ∀ {t : EngineTree E} (target : B256), P t → P (t.makeCanonical target)
  takes : ∀ {t : EngineTree E} (ord : Enumeration B256) (parentHash : B256), P t →
    P (t.takeFor ord parentHash) ∧ ∀ x ∈ t.takenFor ord parentHash, Q x.1 (some x.2)

section Keeps

variable {P : EngineTree E → Prop} {Q : Block → Option ExecutionWitness → Prop}

theorem Keeps.forgets (hk : Keeps P Q) (hf : Forgets t t') (h : P t) : P t' := by
  rw [hf.same]
  exact hk.cache h

theorem Keeps.fails (hk : Keeps P Q) {block : Block} {kind : InsertBlockErrorKind}
    {r : Except InsertBlockFatalError PayloadStatus} (hf : Fails t block kind r t') (h : P t) : P t' := by
  cases hf with
  | fatal => exact h
  | invalid text _ latestValidHash t₁ hforget => exact hk.cache (hk.forgets hforget h)

theorem Keeps.connects (hk : Keeps P Q) {blocks : List (Block × ExecutionWitness)}
    {r : Except InsertBlockFatalError Unit} (hc : Connects blocks t r t') (h : P t)
    (hq : ∀ x ∈ blocks, Q x.1 (some x.2)) : P t' := by
  induction hc with
  | nil => exact h
  | inserted hi _ ih =>
    exact ih (hk.inserts (hq _ List.mem_cons_self) hi h) fun x hx => hq x (List.mem_cons_of_mem _ hx)
  | target hi _ ih =>
    exact ih (hk.makeCanonical _ (hk.inserts (hq _ List.mem_cons_self) hi h)) fun x hx =>
      hq x (List.mem_cons_of_mem _ hx)
  | failed hi hf _ ih =>
    exact ih (hk.fails hf (hk.inserts (hq _ List.mem_cons_self) hi h)) fun x hx => hq x (List.mem_cons_of_mem _ hx)
  | fatal hi hf => exact hk.fails hf (hk.inserts (hq _ List.mem_cons_self) hi h)

/-- **Receiving a block** keeps what inserting one keeps. -/
theorem Keeps.receives (hk : Keeps P Q) {ord : Enumeration B256} {check : B256} {block : Block}
    {mw : Option ExecutionWitness} {r : Answer} (hr : Receives ord t check block mw r t') (hq : Q block mw)
    (h : P t) : P t' := by
  have hconnect : ∀ {t₁ t₂ t₃ : EngineTree E} {result : InsertPayloadOk} {r : Except InsertBlockFatalError Unit},
      Forgets t t₁ → Inserts t₁ block mw (.ok result) t₂ →
      Connects (t₂.takenFor ord block.hash) (t₂.takeFor ord block.hash) r t₃ → P t₃ := by
    intro t₁ t₂ t₃ result r hf hi hc
    obtain ⟨htake, htaken⟩ := hk.takes ord block.hash (hk.inserts hq hi (hk.forgets hf h))
    exact hk.connects hc htake htaken
  cases hr with
  | rejected _ _ hf => exact hk.cache (hk.forgets hf h)
  | connected _ hf hi _ hc => exact hconnect hf hi hc
  | connectFailed _ hf hi _ hc => exact hconnect hf hi hc
  | seen _ hf hi => exact hk.inserts hq hi (hk.forgets hf h)
  | kept _ hf hi _ => exact hk.inserts hq hi (hk.forgets hf h)
  | failed _ hf hi hfail => exact hk.fails hfail (hk.inserts hq hi (hk.forgets hf h))
  | fatal _ hf hi hfail => exact hk.fails hfail (hk.inserts hq hi (hk.forgets hf h))

end Keeps

/-! ## Forkchoice updates -/

/-- the safe and the finalized hash are canonical, where they are given -/
def Consistent (t : EngineTree E) (state : ForkchoiceState) : Prop :=
  (state.finalizedBlockHash ≠ 0 → t.provider.chainState.IsHashCanonical state.finalizedBlockHash) ∧
    (state.safeBlockHash ≠ 0 → t.provider.chainState.IsHashCanonical state.safeBlockHash)

theorem ensureConsistent_cases (t : EngineTree E) (state : ForkchoiceState) :
    (t.ensureConsistentForkchoiceState state = .ok () ∧ t.Consistent state) ∨
      (t.ensureConsistentForkchoiceState state = .error .invalidState ∧ ¬ t.Consistent state) := by
  unfold ensureConsistentForkchoiceState Consistent RessProvider.isHashCanonical
  simp only [decide_eq_true_eq]
  split_ifs with h1 h2
  · exact Or.inr ⟨rfl, fun h => h1.2 (h.1 h1.1)⟩
  · exact Or.inr ⟨rfl, fun h => h2.2 (h.2 h2.1)⟩
  · refine Or.inl ⟨rfl, fun hne => ?_, fun hne => ?_⟩
    · by_contra hc; exact h1 ⟨hne, hc⟩
    · by_contra hc; exact h2 ⟨hne, hc⟩

theorem validatePayloadAttributes_some {attrs : E.validator.PayloadAttributes} {head : Header} {state : ForkchoiceState}
    {version : ℕ} {outcome : OnForkChoiceUpdated}
    (h : validatePayloadAttributes E attrs head state version = some outcome) : outcome = .invalidPayloadAttributes := by
  unfold validatePayloadAttributes at h
  split at h
  · exact (Option.some.inj h).symm
  · split at h
    · exact (Option.some.inj h).symm
    · cases h

abbrev UpdateAnswer := Except ProviderError (TreeOutcome OnForkChoiceUpdated)

/-- the exits of `on_forkchoice_updated` -/
inductive Updates (sched : StateRoot.Schedule) (t : EngineTree E) (state : ForkchoiceState) :
    UpdateAnswer → EngineTree E → Prop
  | zeroHead (hz : state.headBlockHash = 0) : Updates sched t state (.ok (TreeOutcome.new .invalidState)) t
  | invalid {t₁ : EngineTree E} {header : BlockWithParent} {status : PayloadStatus} (hz : state.headBlockHash ≠ 0)
      (hh : t.invalidHeader (t.lowestBufferedAncestorOr state.headBlockHash) = some header)
      (hs : status.status = .invalid .linksToRejectedPayload) (hf : Forgets t t₁) :
      Updates sched t state (.ok (TreeOutcome.new (.withInvalid status))) t₁
  | currentInconsistent {t₁ : EngineTree E} (hz : state.headBlockHash ≠ 0) (hf : Forgets t t₁)
      (hhead : t.canonicalHead.hash = state.headBlockHash) (hc : ¬ t.Consistent state) :
      Updates sched t state (.ok (TreeOutcome.new .invalidState)) t₁
  | current {t₁ : EngineTree E} {answer : UpdateAnswer} (hz : state.headBlockHash ≠ 0) (hf : Forgets t t₁)
      (hhead : t.canonicalHead.hash = state.headBlockHash) (hc : t.Consistent state)
      (ha : answer = .ok (validHead state) ∨ answer = .ok (TreeOutcome.new .invalidPayloadAttributes) ∨
        answer = .error (.headerNotFound state.headBlockHash)) : Updates sched t state answer t₁
  | updateInconsistent {t₁ : EngineTree E} {update : NewCanonicalChain} (hz : state.headBlockHash ≠ 0)
      (hf : Forgets t t₁) (hhead : t.canonicalHead.hash ≠ state.headBlockHash)
      (hu : t.onNewHead state.headBlockHash = some update) (hc : ¬ (t₁.onCanonicalChainUpdate update).Consistent state) :
      Updates sched t state (.ok (TreeOutcome.new .invalidState)) (t₁.onCanonicalChainUpdate update)
  | updated {t₁ : EngineTree E} {update : NewCanonicalChain} {answer : UpdateAnswer} (hz : state.headBlockHash ≠ 0)
      (hf : Forgets t t₁) (hhead : t.canonicalHead.hash ≠ state.headBlockHash)
      (hu : t.onNewHead state.headBlockHash = some update) (hc : (t₁.onCanonicalChainUpdate update).Consistent state)
      (ha : answer = .ok (validHead state) ∨ answer = .ok (TreeOutcome.new .invalidPayloadAttributes)) :
      Updates sched t state answer ((t₁.onCanonicalChainUpdate update).onFinalized sched state.finalizedBlockHash)
  | stored {t₁ : EngineTree E} (hz : state.headBlockHash ≠ 0) (hf : Forgets t t₁)
      (hhead : t.canonicalHead.hash ≠ state.headBlockHash) (hu : t.onNewHead state.headBlockHash = none)
      (hs : t.Stored state.headBlockHash) : Updates sched t state (.ok (validHead state)) t₁
  | syncing {t₁ : EngineTree E} (hz : state.headBlockHash ≠ 0) (hf : Forgets t t₁)
      (hhead : t.canonicalHead.hash ≠ state.headBlockHash) (hu : t.onNewHead state.headBlockHash = none)
      (hs : ¬ t.Stored state.headBlockHash) (event : Option TreeEvent) :
      Updates sched t state (.ok ⟨.valid ⟨.syncing, none⟩, event⟩) t₁

theorem onForkchoiceUpdated_updates (t : EngineTree E) (sched : StateRoot.Schedule) (state : ForkchoiceState)
    (attrs : Option E.validator.PayloadAttributes) (version : ℕ) :
    Updates sched t state (t.onForkchoiceUpdated sched state attrs version).1
      (t.onForkchoiceUpdated sched state attrs version).2 := by
  unfold onForkchoiceUpdated preValidateForkchoiceUpdate
  by_cases hz : state.headBlockHash = 0
  · rw [if_pos hz]
    exact Updates.zeroHead hz
  · rw [if_neg hz]
    obtain ⟨hf, hcases⟩ := checkInvalidAncestor_cases t (t.lowestBufferedAncestorOr state.headBlockHash)
    cases hc : t.checkInvalidAncestor (t.lowestBufferedAncestorOr state.headBlockHash) with
    | mk found t₁ =>
      rw [hc] at hf hcases
      cases found with
      | some status =>
        rcases hcases with hnone | ⟨header, status', hh, hsome, hs⟩
        · cases hnone
        · cases hsome
          exact Updates.invalid hz hh hs hf
      | none =>
        simp only
        have hhead : t₁.canonicalHead = t.canonicalHead := hf.canonicalHead
        have hu : t₁.onNewHead state.headBlockHash = t.onNewHead state.headBlockHash := by
          unfold onNewHead; rw [hf.provider, hhead]
        have hcons : t₁.Consistent state ↔ t.Consistent state := by unfold Consistent; rw [hf.provider]
        by_cases h1 : t₁.canonicalHead.hash = state.headBlockHash
        · rw [if_pos h1]
          have h1' := hhead ▸ h1
          rcases ensureConsistent_cases t₁ state with ⟨hok, hc1⟩ | ⟨herr, hc1⟩
          · rw [hok]
            simp only
            have hc1 := hcons.1 hc1
            cases attrs with
            | none => exact Updates.current hz hf h1' hc1 (Or.inl rfl)
            | some attr =>
              simp only
              split
              · exact Updates.current hz hf h1' hc1 (Or.inr (Or.inr rfl))
              · split
                · rename_i status hstatus
                  rw [validatePayloadAttributes_some hstatus]
                  exact Updates.current hz hf h1' hc1 (Or.inr (Or.inl rfl))
                · exact Updates.current hz hf h1' hc1 (Or.inl rfl)
          · rw [herr]
            exact Updates.currentInconsistent hz hf h1' fun h => hc1 (hcons.2 h)
        · rw [if_neg h1]
          have h1' : t.canonicalHead.hash ≠ state.headBlockHash := hhead ▸ h1
          cases hnew : t₁.onNewHead state.headBlockHash with
          | some update =>
            simp only
            have hu' := hu.symm.trans hnew
            rcases ensureConsistent_cases (t₁.onCanonicalChainUpdate update) state with ⟨hok, hc1⟩ | ⟨herr, hc1⟩
            · rw [hok]
              simp only
              split
              · rename_i status hstatus
                obtain ⟨attr, -, hattr⟩ := Option.bind_eq_some_iff.1 hstatus
                rw [validatePayloadAttributes_some hattr]
                exact Updates.updated hz hf h1' hu' hc1 (Or.inr rfl)
              · exact Updates.updated hz hf h1' hu' hc1 (Or.inl rfl)
            · rw [herr]
              exact Updates.updateInconsistent hz hf h1' hu' hc1
          | none =>
            simp only
            have hu' := hu.symm.trans hnew
            split_ifs with hs
            · exact Updates.stored hz hf h1' hu' (by rw [hf.provider] at hs; exact ChainState.sealedHeader_isSome.1 hs)
            · refine Updates.syncing hz hf h1' hu' ?_ _
              rw [hf.provider] at hs
              exact fun h => hs (ChainState.sealedHeader_isSome.2 h)

end EngineTree

end Ress
