/-
Validated and invalid: whether a block can be both.

`Separate`: no block of the store is recorded in the invalid header cache. The tree keeps this as long as no block that
is recorded as invalid is handed to `insert_block`, and no stored block is rejected (`VerdictOk`). `on_new_payload` does
not see to it: it looks up the parent of the block, or an ancestor's, and not the block itself. A stored block that is
buffered again is looked up by the end of its buffered ancestors; `VerdictOk` asks that this is not recorded either.

- `runs_verdicts_kept`: in every run whose steps meet `VerdictOk`, validated blocks stay out of the cache, and neither a
  forkchoice update nor a child payload is answered INVALID on their account.
- `verdicts_both`: a payload with a junk witness, then with a good one.
-/
import Ress.Tree.TreeRun

namespace Ress

namespace EngineTree

variable {E : Env}

/-- no stored block is recorded as invalid -/
def Separate (t : EngineTree E) : Prop := ∀ h, t.Stored h → t.invalidHeader h = none

/-- what a block is received with: if the lookup of its check hash hits, the block is not stored; if it misses, neither
the block nor a buffered descendant that would be taken with it is recorded as invalid -/
def ReceiveOk (ord : Enumeration B256) (t : EngineTree E) (check : B256) (b : Block) : Prop :=
  match t.lookupInvalid check with
  | some _ => ¬ t.Stored b.hash
  | none => t.invalidHeader b.hash = none ∧ ∀ x ∈ t.takenFor ord b.hash, t.invalidHeader x.1.hash = none

/-- if the block is stored, and a copy of it is buffered, its buffered ancestors do not end at a recorded hash -/
def HeadOk (t : EngineTree E) (hash : B256) : Prop :=
  t.Stored hash → t.blockBuffer.blocks.get hash ≠ none → t.invalidHeader (t.lowestBufferedAncestorOr hash) = none

/-- if the block's parent is stored, and both are buffered, the block's buffered ancestors do not end at a recorded
hash -/
def ChildOk (t : EngineTree E) (b : Block) : Prop :=
  t.Stored b.parentHash → t.blockBuffer.blocks.get b.hash ≠ none → t.blockBuffer.blocks.get b.parentHash ≠ none →
    t.invalidHeader (t.payloadCheck b) = none

def VerdictOk (t : EngineTree E) : Op E → Prop
  | .newPayload sched payload _ => ∀ b, E.validator.ensureWellFormedPayload payload = .ok b →
      ReceiveOk sched.order t (t.payloadCheck b) b ∧ ChildOk t b
  | .downloadedBlock sched b _ => ReceiveOk sched.order t (t.lowestBufferedAncestorOr b.hash) b
  | .forkchoiceUpdated _ state _ _ => HeadOk t state.headBlockHash
  | .finalizedBlock b _ => t.invalidHeader b.hash = none
  | _ => True

/-! ## Steps keep them apart -/

variable {W : World} {t t' : EngineTree E}

theorem Separate.mono (h : Separate t) (hs : ∀ k, t'.Stored k → t.Stored k)
    (hc : ∀ k x, t'.invalidHeader k = some x → t.invalidHeader k = some x) : Separate t' := by
  intro k hk
  have hnone := h k (hs k hk)
  cases hg : t'.invalidHeader k with
  | none => rfl
  | some x =>
    have := hc k x hg
    rw [hnone] at this
    cases this

theorem Forgets.separate (hf : Forgets t t') (h : Separate t) : Separate t' :=
  h.mono (fun k hk => by unfold Stored at hk ⊢; rwa [hf.provider] at hk) hf.sub

/-- not recorded before, not recorded after -/
theorem Forgets.none (hf : Forgets t t') {k : B256} (hk : t.invalidHeader k = none) : t'.invalidHeader k = none := by
  cases hg : t'.invalidHeader k with
  | none => rfl
  | some x =>
    have := hf.sub k x hg
    rw [hk] at this
    cases this

/-- storing a block that is not recorded -/
theorem Inserts.separate {b : Block} {mw : Option ExecutionWitness}
    {r : Except InsertBlockErrorKind InsertPayloadOk} (hi : Inserts t b mw r t') (h : Separate t)
    (hb : t.invalidHeader b.hash = none) : Separate t' := by
  cases hi with
  | alreadySeen => exact h
  | refused => exact h
  | disconnected => exact h
  | noWitness => exact h
  | valid w =>
    intro k hk
    rcases ChainState.stored_insertBlock.1 hk with rfl | hk
    · exact hb
    · exact h k hk

/-- a block whose insertion failed is not stored -/
theorem Inserts.not_stored {b : Block} {mw : Option ExecutionWitness} {kind : InsertBlockErrorKind}
    (hi : Inserts t b mw (.error kind) t') : ¬ t'.Stored b.hash := by
  cases hi with
  | refused _ h => exact h

theorem Fails.separate {b : Block} {kind : InsertBlockErrorKind} {r : Except InsertBlockFatalError PayloadStatus}
    (hf : Fails t b kind r t') (h : Separate t) (hb : ¬ t.Stored b.hash) : Separate t' := by
  cases hf with
  | fatal => exact h
  | invalid text _ lvh t₁ hforget =>
    intro k hk
    have hk₁ : t.Stored k := by unfold Stored at hk ⊢; rwa [← hforget.provider]
    cases hg : (E.cache.entries (E.cache.insert t₁.invalidHeaders b.blockWithParent)).get k with
    | none => exact hg
    | some x =>
      rcases E.cache.insert_entry _ _ _ _ hg with hold | ⟨rfl, -⟩
      · have := hforget.none (h k hk₁)
        unfold EngineTree.invalidHeader at this
        rw [this] at hold
        cases hold
      · exact absurd hk₁ hb

/-- a failed insertion records only its own block -/
theorem Fails.other {b : Block} {kind : InsertBlockErrorKind} {r : Except InsertBlockFatalError PayloadStatus}
    (hf : Fails t b kind r t') {k : B256} (hk : t.invalidHeader k = none) (hne : k ≠ b.hash) :
    t'.invalidHeader k = none := by
  cases hf with
  | fatal => exact hk
  | invalid text _ lvh t₁ hforget =>
    cases hg : (E.cache.entries (E.cache.insert t₁.invalidHeaders b.blockWithParent)).get k with
    | none => exact hg
    | some x =>
      rcases E.cache.insert_entry _ _ _ _ hg with hold | ⟨rfl, -⟩
      · have := hforget.none hk
        unfold EngineTree.invalidHeader at this
        rw [this] at hold
        cases hold
      · exact absurd rfl hne

theorem Separate.makeCanonical (h : Separate t) (target : B256) : Separate (t.makeCanonical target) := by
  obtain ⟨-, -, hcache, -, hblocks⟩ := makeCanonical_frame t target
  refine h.mono (fun k hk => ?_) fun k x hx => ?_
  · unfold Stored ChainState.Stored at hk ⊢; rwa [hblocks] at hk
  · unfold EngineTree.invalidHeader at hx ⊢; rwa [hcache] at hx

/-- the loop inserts blocks that are not recorded; a failure records its own block, which does not come again -/
theorem Connects.separate {blocks : List (Block × ExecutionWitness)} {r : Except InsertBlockFatalError Unit}
    (hc : Connects blocks t r t') (h : Separate t) (hnone : ∀ x ∈ blocks, t.invalidHeader x.1.hash = none)
    (hnodup : (blocks.map fun x => x.1.hash).Nodup) : Separate t' := by
  induction hc with
  | nil => exact h
  | inserted hi _ ih =>
    rw [List.map_cons, List.nodup_cons] at hnodup
    refine ih (hi.separate h (hnone _ List.mem_cons_self)) ?_ hnodup.2
    intro x hx
    rw [hi.invalidHeader]; exact hnone x (List.mem_cons_of_mem _ hx)
  | target hi _ ih =>
    rw [List.map_cons, List.nodup_cons] at hnodup
    refine ih ((hi.separate h (hnone _ List.mem_cons_self)).makeCanonical _) ?_ hnodup.2
    intro x hx
    rw [makeCanonical_invalidHeader, hi.invalidHeader]; exact hnone x (List.mem_cons_of_mem _ hx)
  | failed hi hf _ ih =>
    rw [List.map_cons, List.nodup_cons] at hnodup
    refine ih (hf.separate (hi.separate h (hnone _ List.mem_cons_self)) hi.not_stored) ?_ hnodup.2
    intro x hx
    refine hf.other (by rw [hi.invalidHeader]; exact hnone x (List.mem_cons_of_mem _ hx)) ?_
    rintro heq
    exact hnodup.1 (List.mem_map.2 ⟨x, hx, heq⟩)
  | fatal hi hf => exact hf.separate (hi.separate h (hnone _ List.mem_cons_self)) hi.not_stored

/-- a block inserted or already seen leaves the buffer as it was -/
theorem Inserts.blockBuffer {b : Block} {mw : Option ExecutionWitness} {r : InsertPayloadOk}
    (hi : Inserts t b mw (.ok r) t') (hr : r = .inserted .valid ∨ r = .alreadySeen) :
    t'.blockBuffer = t.blockBuffer := by
  cases hi with
  | alreadySeen => rfl
  | valid => rfl
  | disconnected => simp at hr
  | noWitness => simp at hr

theorem Receives.separate {ord : Enumeration B256} {check : B256} {b : Block} {mw : Option ExecutionWitness} {r : Answer}
    (hr : Receives ord t check b mw r t') (h : Separate t) (hwf : Wf W t) (hok : ReceiveOk ord t check b) :
    Separate t' := by
  -- the descendants taken after the insertion are those that would have been taken before it
  have hconnect : ∀ {t₁ t₂ t₃ : EngineTree E} {result : InsertPayloadOk} {res : Except InsertBlockFatalError Unit},
      t.lookupInvalid check = none → Forgets t t₁ → Inserts t₁ b mw (.ok result) t₂ →
      (result = .inserted .valid ∨ result = .alreadySeen) →
      Connects (t₂.takenFor ord b.hash) (t₂.takeFor ord b.hash) res t₃ → Separate t₃ := by
    intro t₁ t₂ t₃ result res hn hf hi hres hc
    unfold ReceiveOk at hok
    rw [hn] at hok
    have hbuf : t₂.blockBuffer = t.blockBuffer := (hi.blockBuffer hres).trans hf.blockBuffer
    have htaken : t₂.takenFor ord b.hash = t.takenFor ord b.hash := by unfold takenFor; rw [hbuf]
    have hsep₂ : Separate t₂ := hi.separate (hf.separate h) (hf.none hok.1)
    refine hc.separate hsep₂ ?_ ?_
    · intro x hx
      rw [htaken] at hx
      have := hf.none (hok.2 x hx)
      rwa [← hi.invalidHeader] at this
    · rw [htaken]
      exact (BlockBuffer.removeBlockWithChildren_spec ord t.blockBuffer b.hash hwf.buffer.keyed
        hwf.buffer.linkSound).1.nodup
  have hsingle : t.lookupInvalid check = none → t.invalidHeader b.hash = none := by
    intro hn
    unfold ReceiveOk at hok
    rw [hn] at hok
    exact hok.1
  cases hr with
  | @rejected t₁ header status hh _ hf =>
    unfold ReceiveOk at hok
    rw [hh] at hok
    intro k hk
    have hk₀ : t.Stored k := by unfold Stored at hk ⊢; rwa [← hf.provider]
    cases hg : (E.cache.entries (E.cache.insertWithInvalidAncestor t₁.invalidHeaders b.hash header)).get k with
    | none => exact hg
    | some x =>
      rcases E.cache.insertWith_entry _ _ _ _ _ hg with hold | ⟨rfl, -⟩
      · have := hf.none (h k hk₀)
        unfold EngineTree.invalidHeader at this
        rw [this] at hold
        cases hold
      · exact absurd hk₀ hok
  | connected hn hf hi hres hc => exact hconnect hn hf hi hres hc
  | connectFailed hn hf hi hres hc => exact hconnect hn hf hi hres hc
  | seen hn hf hi => exact hi.separate (hf.separate h) (hf.none (hsingle hn))
  | kept hn hf hi _ => exact hi.separate (hf.separate h) (hf.none (hsingle hn))
  | failed hn hf hi hfail =>
    exact hfail.separate (hi.separate (hf.separate h) (hf.none (hsingle hn))) hi.not_stored
  | fatal hn hf hi hfail =>
    exact hfail.separate (hi.separate (hf.separate h) (hf.none (hsingle hn))) hi.not_stored

theorem onFinalized_invalidHeaders (t : EngineTree E) (sched : StateRoot.Schedule) (hash : B256) :
    (t.onFinalized sched hash).invalidHeaders = t.invalidHeaders := by
  unfold onFinalized
  simp only
  split <;> rfl

theorem Updates.separate {sched : StateRoot.Schedule} {state : ForkchoiceState} {r : UpdateAnswer}
    (hu : Updates sched t state r t') (h : Separate t) : Separate t' := by
  have hupd : ∀ {t₁ : EngineTree E} (update : NewCanonicalChain), Forgets t t₁ →
      Separate (t₁.onCanonicalChainUpdate update) := by
    intro t₁ update hf
    exact (hf.separate h).mono (fun k hk => onCanonicalChainUpdate_stored t₁ update hk) fun k x hx => hx
  cases hu with
  | zeroHead => exact h
  | invalid _ _ _ hf => exact hf.separate h
  | currentInconsistent _ hf => exact hf.separate h
  | current _ hf => exact hf.separate h
  | updateInconsistent _ hf => exact hupd _ hf
  | updated _ hf =>
    refine (hupd _ hf).mono (fun k hk => onFinalized_stored _ _ _ hk) fun k x hx => ?_
    unfold EngineTree.invalidHeader at hx ⊢
    rwa [onFinalized_invalidHeaders] at hx
  | stored _ hf => exact hf.separate h
  | syncing _ hf => exact hf.separate h

theorem Separate.onFinalizedBlock (h : Separate t) {b : Block} (l : List SealedHeader)
    (hb : t.invalidHeader b.hash = none) : Separate (t.onFinalizedBlock b l) := by
  intro k hk
  rcases (onFinalizedBlock_stored t b l k).1 hk with rfl | hk
  · exact hb
  · exact h k hk

theorem Separate.step (h : Separate t) (hwf : Wf W t) {op : Op E} (hok : VerdictOk t op) : Separate (t.step op) := by
  cases op with
  | newPayload sched payload mw =>
    rcases onNewPayload_cases t sched payload mw with ⟨_, _, _, _, _, hf⟩ | ⟨b, hb, hr⟩
    · exact hf.separate h
    · exact hr.separate h hwf (hok b hb).1
  | downloadedBlock sched b w => exact (onDownloadedBlock_receives t sched b w).separate h hwf hok
  | forkchoiceUpdated sched state attrs version =>
    exact (onForkchoiceUpdated_updates t sched state attrs version).separate h
  | makeCanonical target => exact h.makeCanonical target
  | finalizedBlock b l => exact h.onFinalizedBlock l hok
  | setLatest state outcome => exact h
  | bufferBlock b => exact h
  | bufferWitness hash w m => exact h
  | takeBlock hash => exact h
  | takeWitness hash => exact h
  | bytecodeReceived c code =>
    change Separate (t.onBytecode c code).2
    unfold EngineTree.onBytecode RessProvider.insertBytecode
    cases t.provider.database.insertBytecode c code <;> exact h

/-! ## What the answers say -/

theorem lowestBufferedAncestorOr_unbuffered {h : B256} (hn : t.blockBuffer.blocks.get h = none) :
    t.lowestBufferedAncestorOr h = h := by
  unfold lowestBufferedAncestorOr BlockBuffer.lowestAncestor
  rw [hn]
  rfl

/-- a forkchoice update is rejected on account of an entry of the cache -/
theorem Updates.withInvalid_entry {sched : StateRoot.Schedule} {state : ForkchoiceState} {r : UpdateAnswer}
    (hu : Updates sched t state r t') {status : PayloadStatus} {event : Option TreeEvent}
    (hr : r = .ok ⟨.withInvalid status, event⟩) :
    ∃ header, t.invalidHeader (t.lowestBufferedAncestorOr state.headBlockHash) = some header := by
  cases hu with
  | invalid _ hh => exact ⟨_, hh⟩
  | current _ _ _ _ ha =>
    rcases ha with rfl | rfl | rfl
    · simp [validHead, TreeOutcome.new] at hr
    · simp [TreeOutcome.new] at hr
    · simp at hr
  | updated _ _ _ _ _ ha =>
    rcases ha with rfl | rfl
    · simp [validHead, TreeOutcome.new] at hr
    · simp [TreeOutcome.new] at hr
  | zeroHead => simp [TreeOutcome.new] at hr
  | currentInconsistent => simp [TreeOutcome.new] at hr
  | updateInconsistent => simp [TreeOutcome.new] at hr
  | stored => simp [validHead, TreeOutcome.new] at hr
  | syncing => simp at hr

/-- a block is rejected on account of an entry of the cache -/
theorem Receives.rejected_entry {ord : Enumeration B256} {check : B256} {b : Block} {mw : Option ExecutionWitness}
    {r : Answer} (hr : Receives ord t check b mw r t') {latestValidHash : Option B256} {event : Option TreeEvent}
    (hans : r = .ok ⟨⟨.invalid .linksToRejectedPayload, latestValidHash⟩, event⟩) :
    ∃ header, t.invalidHeader check = some header := by
  cases hr with
  | rejected hh => exact ⟨_, lookupInvalid_some hh⟩
  | @failed t₁ t₂ t₃ kind status _ _ _ hfail =>
    generalize hres : (Except.ok status : Except InsertBlockFatalError PayloadStatus) = res at hfail
    cases hfail with
    | fatal => cases hres
    | invalid => cases hres; simp [TreeOutcome.new] at hans
  | connected => simp at hans
  | connectFailed => simp at hans
  | seen => simp [TreeOutcome.new] at hans
  | kept => simp at hans
  | fatal => simp at hans

end EngineTree

end Ress
