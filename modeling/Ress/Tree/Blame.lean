/-
Who is blamed: what an entry of the invalid header cache says about a block.

Entries come from a failed insertion, and are copied from a block to a descendant that is received after it. The
descendant is found by walking down the buffer, whose blocks come and go. `Blames`: each entry names a block whose own
insertion ended in a validation error, and the hash it is kept under is that block's or a descendant's.

- `lowestBufferedAncestorOr_descends`: the walk ends at an ancestor, whatever is buffered.
- `Receives.blames`, `Blames.step`: every step keeps `Blames`.
- `runs_blame`: in every run, and so a rejection on account of the cache always has a failed block behind it.
-/
import Ress.Tree.Verdicts

namespace Ress

namespace EngineTree

variable {E : Env} {W : World} {t t' : EngineTree E}

/-- an insertion of this block has ended in a validation error -/
def Rejected (t : EngineTree E) (x : BlockWithParent) : Prop :=
  ∃ call ∈ t.insertions, call.block.blockWithParent = x ∧
    ∃ kind text, call.result = .error kind ∧ E.ensureValidationError kind = .ok text

/-- every entry names a rejected block, which is the block it is kept for or an ancestor of it -/
def Blames (W : World) (t : EngineTree E) : Prop :=
  ∀ k x, t.invalidHeader k = some x → t.Rejected x ∧ W.Descends k x.block.hash

/-! ## The walk down the buffer -/

theorem parent_descends {b : Block} (hb : W.Knows b.toSealedHeader) : W.Descends b.hash b.parentHash :=
  Relation.ReflTransGen.single ⟨b.toSealedHeader, hb, rfl⟩

theorem lowestFrom_descends {β : BlockBuffer} (hβ : BlockBuffer.Known W β) (fuel : ℕ) {b : Block}
    (hb : W.Knows b.toSealedHeader) :
    W.Descends b.hash (BlockBuffer.lowestFrom β.blocks fuel b).parentHash := by
  induction fuel generalizing b with
  | zero => exact parent_descends hb
  | succ fuel ih =>
    simp only [BlockBuffer.lowestFrom]
    cases hp : β.blocks.get b.parentHash with
    | none => exact parent_descends hb
    | some p =>
      obtain ⟨hph, hpk⟩ := hβ.blocks _ p hp
      have hrest := ih hpk
      rw [hph] at hrest
      exact (parent_descends hb).trans hrest

/-- **The lowest buffered ancestor is one**: the hash that is looked up is the block's or an ancestor's. -/
theorem lowestBufferedAncestorOr_descends (hwf : Wf W t) (hash : B256) :
    W.Descends hash (t.lowestBufferedAncestorOr hash) := by
  simp only [lowestBufferedAncestorOr, BlockBuffer.lowestAncestor]
  cases hb : t.blockBuffer.blocks.get hash with
  | none => exact Relation.ReflTransGen.refl
  | some b =>
    obtain ⟨hbh, hbk⟩ := hwf.buffer.blocks hash b hb
    exact hbh ▸ lowestFrom_descends hwf.buffer _ hbk

theorem payloadCheck_descends (hwf : Wf W t) {b : Block} (hb : W.Knows b.toSealedHeader) :
    W.Descends b.hash (t.payloadCheck b) := by
  unfold payloadCheck
  split_ifs
  · exact parent_descends hb
  · exact lowestBufferedAncestorOr_descends hwf b.hash

/-! ## Steps keep the blame right -/

/-- the history of insertions only grows -/
theorem Rejected.mono {x : BlockWithParent} (h : t.Rejected x) (hsub : t.insertions ⊆ t'.insertions) :
    t'.Rejected x := by
  obtain ⟨call, hmem, hcall⟩ := h
  exact ⟨call, hsub hmem, hcall⟩

theorem Blames.mono (h : Blames W t) (hentries : ∀ k x, t'.invalidHeader k = some x → t.invalidHeader k = some x)
    (hsub : t.insertions ⊆ t'.insertions) : Blames W t' := by
  intro k x hk
  obtain ⟨hrejected, hdescends⟩ := h k x (hentries k x hk)
  exact ⟨hrejected.mono hsub, hdescends⟩

theorem Forgets.blames (hf : Forgets t t') (h : Blames W t) : Blames W t' :=
  h.mono hf.sub (by rw [hf.same]; exact fun _ hc => hc)

theorem Inserts.blames {b : Block} {mw : Option ExecutionWitness}
    {r : Except InsertBlockErrorKind InsertPayloadOk} (hi : Inserts t b mw r t') (h : Blames W t) : Blames W t' := by
  have heq := hi.insertions
  refine h.mono (fun k x hk => ?_) (by rw [heq]; exact List.subset_append_left _ _)
  rwa [hi.invalidHeader] at hk

/-- a failed insertion blames its own block -/
theorem Inserts.blames_failed {t₁ : EngineTree E} {b : Block} {mw : Option ExecutionWitness}
    {kind : InsertBlockErrorKind} {r : Except InsertBlockFatalError PayloadStatus}
    (hi : Inserts t b mw (.error kind) t₁) (hf : Fails t₁ b kind r t') (h : Blames W t) : Blames W t' := by
  have h₁ := hi.blames h
  cases hf with
  | fatal => exact h₁
  | invalid text htext _ t₂ hforget =>
    intro k x hk
    have hinsertions : t₂.insertions = t₁.insertions := by rw [hforget.same]
    rcases E.cache.insert_entry _ _ _ _ hk with hold | ⟨rfl, rfl⟩
    · obtain ⟨hrejected, hdescends⟩ := hforget.blames h₁ k x hold
      exact ⟨hrejected, hdescends⟩
    · have heq := hi.insertions
      refine ⟨⟨⟨b, mw, t.provider.database.bytecodes.keys, .error kind⟩, ?_, rfl, kind, text, rfl, htext⟩,
        Relation.ReflTransGen.refl⟩
      show _ ∈ t₂.insertions
      rw [hinsertions, heq]
      exact List.mem_append_right _ (List.mem_singleton_self _)

theorem Blames.makeCanonical (h : Blames W t) (target : B256) : Blames W (t.makeCanonical target) := by
  obtain ⟨-, -, -, hinsertions, -⟩ := makeCanonical_frame t target
  refine h.mono (fun k x hk => ?_) (by rw [hinsertions]; exact fun _ hc => hc)
  rwa [makeCanonical_invalidHeader] at hk

theorem Connects.blames {blocks : List (Block × ExecutionWitness)} {r : Except InsertBlockFatalError Unit}
    (hc : Connects blocks t r t') (h : Blames W t) : Blames W t' := by
  induction hc with
  | nil => exact h
  | inserted hi _ ih => exact ih (hi.blames h)
  | target hi _ ih => exact ih ((hi.blames h).makeCanonical _)
  | failed hi hf _ ih => exact ih (hi.blames_failed hf h)
  | fatal hi hf => exact hi.blames_failed hf h

/-- **Receiving a block** keeps the blame right, where the hash that is looked up is an ancestor's. -/
theorem Receives.blames {ord : Enumeration B256} {check : B256} {b : Block} {mw : Option ExecutionWitness} {r : Answer}
    (hr : Receives ord t check b mw r t') (h : Blames W t) (hcheck : W.Descends b.hash check) : Blames W t' := by
  cases hr with
  | @rejected t₁ header status hh _ hf =>
    intro k x hk
    rcases E.cache.insertWith_entry _ _ _ _ _ hk with hold | ⟨rfl, rfl⟩
    · exact hf.blames h k x hold
    · -- the entry of the ancestor is copied
      obtain ⟨hrejected, hdescends⟩ := h check x (lookupInvalid_some hh)
      refine ⟨hrejected.mono ?_, hcheck.trans hdescends⟩
      show t.insertions ⊆ t₁.insertions
      rw [hf.same]
      exact fun _ hc => hc
  | connected _ hf hi _ hc => exact hc.blames (hi.blames (hf.blames h))
  | connectFailed _ hf hi _ hc => exact hc.blames (hi.blames (hf.blames h))
  | seen _ hf hi => exact hi.blames (hf.blames h)
  | kept _ hf hi _ => exact hi.blames (hf.blames h)
  | failed _ hf hi hfail => exact hi.blames_failed hfail (hf.blames h)
  | fatal _ hf hi hfail => exact hi.blames_failed hfail (hf.blames h)

theorem onFinalized_insertions (t : EngineTree E) (sched : StateRoot.Schedule) (hash : B256) :
    (t.onFinalized sched hash).insertions = t.insertions := by
  simp only [onFinalized]
  split <;> rfl

theorem Updates.blames {sched : StateRoot.Schedule} {state : ForkchoiceState} {r : UpdateAnswer}
    (hu : Updates sched t state r t') (h : Blames W t) : Blames W t' := by
  cases hu with
  | zeroHead => exact h
  | invalid _ _ _ hf => exact hf.blames h
  | currentInconsistent _ hf => exact hf.blames h
  | current _ hf => exact hf.blames h
  | updateInconsistent _ hf => exact hf.blames h
  | @updated t₁ update _ _ hf =>
    have hupdate : Blames W (t₁.onCanonicalChainUpdate update) := hf.blames h
    refine hupdate.mono (fun k x hk => ?_) ?_
    · unfold EngineTree.invalidHeader at hk ⊢
      rwa [onFinalized_invalidHeaders] at hk
    · rw [onFinalized_insertions]
      exact fun _ hc => hc
  | stored _ hf => exact hf.blames h
  | syncing _ hf => exact hf.blames h

theorem Blames.step (h : Blames W t) (hwf : Wf W t) {op : Op E} (hok : OpKnown W op) : Blames W (t.step op) := by
  cases op with
  | newPayload sched payload mw =>
    rcases onNewPayload_cases t sched payload mw with ⟨_, _, _, _, _, hf⟩ | ⟨b, hb, hr⟩
    · exact hf.blames h
    · exact hr.blames h (payloadCheck_descends hwf (hok b hb))
  | downloadedBlock sched b w =>
    exact (onDownloadedBlock_receives t sched b w).blames h (lowestBufferedAncestorOr_descends hwf b.hash)
  | forkchoiceUpdated sched state attrs version => exact (onForkchoiceUpdated_updates t sched state attrs version).blames h
  | makeCanonical target => exact h.makeCanonical target
  | bytecodeReceived c code =>
    change Blames W (t.onBytecode c code).2
    unfold EngineTree.onBytecode RessProvider.insertBytecode
    cases t.provider.database.insertBytecode c code <;> exact h
  | _ => exact h

/-! ## What a rejection says -/

/-- the block with this hash is one whose own insertion failed validation, or descends from one -/
def HasRejectedAncestor (W : World) (t : EngineTree E) (hash : B256) : Prop :=
  ∃ x, t.Rejected x ∧ W.Descends hash x.block.hash

/-- a rejection on account of the cache has a rejected ancestor behind it -/
structure RejectionsBlame (W : World) (t : EngineTree E) : Prop where
  payload : ∀ sched payload mw b latestValidHash event, E.validator.ensureWellFormedPayload payload = .ok b →
    W.Knows b.toSealedHeader →
    (t.onNewPayload sched payload mw).1 = .ok ⟨⟨.invalid .linksToRejectedPayload, latestValidHash⟩, event⟩ →
    HasRejectedAncestor W t b.hash
  downloaded : ∀ sched b witness latestValidHash event,
    (t.onDownloadedBlock sched b witness).1 = .ok ⟨⟨.invalid .linksToRejectedPayload, latestValidHash⟩, event⟩ →
    HasRejectedAncestor W t b.hash
  update : ∀ sched state attrs version status event,
    (t.onForkchoiceUpdated sched state attrs version).1 = .ok ⟨.withInvalid status, event⟩ →
    HasRejectedAncestor W t state.headBlockHash

theorem Blames.ancestor (h : Blames W t) {hash check : B256} {header : BlockWithParent}
    (hcheck : W.Descends hash check) (hh : t.invalidHeader check = some header) : HasRejectedAncestor W t hash := by
  obtain ⟨hrejected, hdescends⟩ := h check header hh
  exact ⟨header, hrejected, hcheck.trans hdescends⟩

theorem Blames.rejections (h : Blames W t) (hwf : Wf W t) : RejectionsBlame W t where
  payload sched payload mw b latestValidHash event hb hknows hans := by
    rcases onNewPayload_cases t sched payload mw with ⟨_, _, herr, -⟩ | ⟨b', hb', hr⟩
    · cases hb.symm.trans herr
    · cases hb.symm.trans hb'
      obtain ⟨header, hh⟩ := hr.rejected_entry hans
      exact h.ancestor (payloadCheck_descends hwf hknows) hh
  downloaded sched b witness latestValidHash event hans := by
    obtain ⟨header, hh⟩ := (onDownloadedBlock_receives t sched b witness).rejected_entry hans
    exact h.ancestor (lowestBufferedAncestorOr_descends hwf b.hash) hh
  update sched state attrs version status event hans := by
    obtain ⟨header, hh⟩ := (onForkchoiceUpdated_updates t sched state attrs version).withInvalid_entry hans
    exact h.ancestor (lowestBufferedAncestorOr_descends hwf state.headBlockHash) hh

/-- **No block is blamed without cause.** In every run, every entry of the invalid header cache names a block whose own
insertion ended in a validation error earlier in the run, and is kept for that block or a descendant of it. So no
payload, downloaded block or forkchoice update is rejected on account of the cache unless it is for such a block or a
descendant. -/
theorem runs_blame (W : World) (database : RessDatabase) (ops : List (Op E)) (hops : ∀ op ∈ ops, OpKnown W op) :
    Blames W (Run.run step (launch E database W.genesis) ops) ∧
      RejectionsBlame W (Run.run step (launch E database W.genesis) ops) := by
  have hstart : Wf W (launch E database W.genesis) ∧ Blames W (launch E database W.genesis) := by
    refine ⟨wf_launch W database, ?_⟩
    intro k x hk
    have hk' : (E.cache.entries E.cache.new).get k = some x := hk
    rw [E.cache.entries_new, FMap.get_empty] at hk'
    cases hk'
  have hknown : Run.AllSteps step (fun _ op => OpKnown W op) (launch E database W.genesis) ops :=
    Run.allSteps_of_mem hops _
  have hrun := Run.run_invariant (I := fun t => Wf W t ∧ Blames W t)
    (fun _ _ h hok => ⟨h.1.step hok, h.2.step h.1 hok⟩) hstart hknown
  exact ⟨hrun.2, hrun.2.rejections hrun.1⟩

/-- a rejected block and a child of it -/
theorem runs_blame_junk :
    Blames Chain.twoBranches (smallTree
        [smallPayload (Chain.mainBlock 1) junkWitness, smallPayload (Chain.mainBlock 2) smallWitness]) ∧
      RejectionsBlame Chain.twoBranches (smallTree
        [smallPayload (Chain.mainBlock 1) junkWitness, smallPayload (Chain.mainBlock 2) smallWitness]) := by
  apply runs_blame Chain.twoBranches
  intro op hop
  simp only [List.mem_cons, List.not_mem_nil, or_false] at hop
  rcases hop with rfl | rfl <;> exact smallPayload_known (Chain.mainBlock_knows (by omega)) _

end EngineTree

end Ress
