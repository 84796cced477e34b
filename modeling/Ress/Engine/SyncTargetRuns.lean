/-
The sync target over the life of a node.

The head is set by an event that the engine handles, by the loop over buffered descendants, and by a finalized download.
Over one event of a node, `KeepsUp` says that the sync target is not waiting between the store and the head.

- `Rooted`: blocks are known, and stored blocks are linked to their parents. Every run keeps it, where the blocks it is
  fed are known and finalized blocks are linked (`EventLinked`).
- `sync_target_lands`: a sync target that an event stores is the head after it, if no insertion was fatal and its chain
  met the canonical chain when it was stored.
-/
import Ress.Engine.BufferRuns
import Ress.Engine.PendingOnly
import Ress.Tree.SyncTarget

namespace Ress

namespace EngineTree

open ConsensusEngine (Messages)

variable {E : Env} {W : World} {t t' : EngineTree E}

/-! ## Stored blocks are linked -/

/-- blocks are known, and every stored block but genesis is one above its parent -/
structure Rooted (W : World) (t : EngineTree E) : Prop extends Wf W t where
  linked : t.chain.state.Linked W

theorem Rooted.of_blocks (h : Rooted W t) (hwf : Wf W t')
    (hblocks : ∀ k b, t'.chain.state.blocksByHash.get k = some b → t.chain.state.blocksByHash.get k = some b) :
    Rooted W t' :=
  ⟨hwf, fun k b hb => h.linked k b (hblocks k b hb)⟩

theorem Rooted.withBuffer (h : Rooted W t) {buffer : BlockBuffer} (hb : BlockBuffer.Known W buffer) :
    Rooted W (t.withBuffer buffer) := ⟨⟨h.chain, hb⟩, h.linked⟩

theorem Rooted.makeCanonical (h : Rooted W t) (target : B256) : Rooted W (t.makeCanonical target) := by
  refine h.of_blocks (h.toWf.makeCanonical target) fun k b hb => ?_
  rw [makeCanonical_chain, Chain.makeCanonical_blocks] at hb
  exact hb

theorem Rooted.keeps (W : World) : Keeps (E := E) (Rooted W) fun b _ => W.Knows b.toSealedHeader where
  cache h := ⟨⟨h.chain, h.buffer⟩, h.linked⟩
  inserts {t t' b mw r} hb hi h := by
    refine ⟨hi.wf h.toWf hb, ?_⟩
    rcases hi.chain hb with ⟨-, -, hchild, w, hchain⟩ | ⟨-, hchain⟩
    · rw [hchain]
      exact ((Chain.Since.start h.chain h.linked).insertBlock hchild w).linked
    · rw [hchain]
      exact h.linked
  makeCanonical target h := h.makeCanonical target
  takes ord p h := by
    obtain ⟨hwf, hknown⟩ := h.toWf.takeFor ord p
    exact ⟨⟨hwf, h.linked⟩, hknown⟩

theorem Rooted.messages (h : Rooted W t) {sched : StateRoot.Schedule} {message : BeaconEngineMessage E}
    (hq : BringsBlock (fun b => W.Knows b.toSealedHeader) message) (hm : Messages sched t message t') :
    Rooted W t' := by
  have htake : ∀ hash, Rooted W (t.withBuffer (t.blockBuffer.removeWitness hash).2) :=
    fun hash => h.withBuffer (h.buffer.shrinks (BlockBuffer.removeWitness_removes _ hash).1.toShrinks)
  apply hm.keeps h
  · exact fun t₁ target h₁ => h₁.makeCanonical target
  · exact fun t₁ t₂ hf h₁ => (Rooted.keeps W).forgets hf h₁
  · exact fun t₁ t₂ ht h₁ => ⟨ht.wf h₁.toWf, by rw [ht.chain]; exact h₁.linked⟩
  · exact htake
  · rintro payload tx b check answer t₁ rfl hb hr
    exact (Rooted.keeps W).receives hr (hq b hb) (htake _)
  · exact fun state answer t₁ hu => h.of_blocks (hu.wf h.toWf) fun k b hb => hu.blocks hb

/-! ## What one event does with the sync target -/

/-- since `t` the sync target is not waiting to be made canonical, unless a call was fatal -/
def KeepsUp (W : World) (t : EngineTree E) (h : B256) (t' : EngineTree E) : Prop :=
  ∃ calls, Watches W t h calls t' ∧ ((∃ call ∈ calls, call.IsFatal E) ∨ ∃ s, At t h calls t' s ∧ s ≠ .pending)

/-- the calls go on -/
theorem Watches.keeps (W : World) (t : EngineTree E) (h : B256) (calls : List Insertion) :
    Keeps (E := E) (fun t' => ∃ more, Watches W t h (calls ++ more) t') fun b _ => W.Knows b.toSealedHeader where
  cache := by
    rintro t' cache ⟨more, hw⟩
    exact ⟨more, hw.withCache cache⟩
  inserts := by
    rintro t₁ t₂ b mw r hb hi ⟨more, hw⟩
    have hw₂ := hw.inserts hb hi
    rw [List.append_assoc] at hw₂
    exact ⟨_, hw₂⟩
  makeCanonical := by
    rintro t' target ⟨more, hw⟩
    exact ⟨more, hw.makeCanonical target⟩
  takes := by
    rintro t' ord p ⟨more, hw⟩
    have hwf : Wf W t' := ⟨hw.since.toWf, hw.buffer⟩
    obtain ⟨htake, hknown⟩ := hwf.takeFor ord p
    exact ⟨⟨more, hw.congr rfl rfl rfl htake.buffer⟩, hknown⟩

variable {h : B256}

theorem KeepsUp.congr (hs : KeepsUp W t h t') {t₁ : EngineTree E} (hchain : t₁.chain = t'.chain)
    (htracker : t₁.forkchoiceStateTracker = t'.forkchoiceStateTracker) (hinsertions : t₁.insertions = t'.insertions)
    (hbuffer : BlockBuffer.Known W t₁.blockBuffer) : KeepsUp W t h t₁ := by
  obtain ⟨calls, hw, hstage⟩ := hs
  refine ⟨calls, hw.congr hchain htracker hinsertions hbuffer, hstage.imp_right ?_⟩
  rintro ⟨s, hat, hne⟩
  exact ⟨s, hat.of_chain hchain, hne⟩

theorem KeepsUp.withBuffer (hs : KeepsUp W t h t') {buffer : BlockBuffer} (hb : BlockBuffer.Known W buffer) :
    KeepsUp W t h (t'.withBuffer buffer) := hs.congr rfl rfl rfl hb

theorem KeepsUp.buffer (hs : KeepsUp W t h t') : BlockBuffer.Known W t'.blockBuffer := by
  obtain ⟨calls, hw, -⟩ := hs
  exact hw.buffer

/-- **What is left to the event of an answer.** -/
theorem KeepsUp.of_announces {calls : List Insertion} {answer : Answer} (ha : Announces W t h calls answer t') :
    (announced answer = some (.makeCanonical h) → KeepsUp W t h (t'.makeCanonical h)) ∧
      ((∀ target, announced answer ≠ some (.makeCanonical target)) → KeepsUp W t h t') ∧
      ∀ target, announced answer = some (.makeCanonical target) → target = h := by
  obtain ⟨more, hw, htarget, hstage⟩ := ha
  refine ⟨fun _ => ⟨_, hw.makeCanonical h, ?_⟩, fun hquiet => ⟨_, hw, ?_⟩, htarget⟩
  · rcases hstage with ⟨call, hmem, hcall⟩ | ⟨s, hat, -⟩
    · exact Or.inl ⟨call, List.mem_append_right _ hmem, hcall⟩
    · refine Or.inr ⟨s.made, hat.makeCanonical hw, ?_⟩
      cases s <;> decide
  · rcases hstage with ⟨call, hmem, hcall⟩ | ⟨s, hat, hpend⟩
    · exact Or.inl ⟨call, List.mem_append_right _ hmem, hcall⟩
    · exact Or.inr ⟨s, hat, fun hp => hquiet h (hpend hp)⟩

/-- whenever the calls store `h`, its chain meets the canonical chain through the blocks stored then -/
def MeetsCanonical (t : EngineTree E) (calls : List Insertion) (h : B256) : Prop :=
  ∀ pre b post, validated calls = pre ++ b :: post → b.hash = h →
    (t.provider.chainState.storing (pre ++ [b])).Meets h t.canonicalHead.hash

theorem KeepsUp.lands (hs : KeepsUp W t h t') (hstored : t'.Stored h) {calls : List Insertion}
    (hcalls : t'.insertions = t.insertions ++ calls) (hfatal : ∀ call ∈ calls, ¬ call.IsFatal E)
    (hmeets : MeetsCanonical t calls h) : t'.canonicalHead.hash = h := by
  obtain ⟨calls', hw, hstage⟩ := hs
  obtain rfl : calls' = calls := List.append_cancel_left (hw.insertions.symm.trans hcalls)
  rcases hstage with ⟨call, hmem, hcall⟩ | ⟨s, hat, hne⟩
  · exact absurd hcall (hfatal call hmem)
  · cases s with
    | waiting => exact absurd hstored hat.notStored
    | pending => exact absurd rfl hne
    | landed =>
      obtain ⟨pre, b, post, hsplit, hb, hhead⟩ := hat
      exact hhead (hmeets pre b post hsplit hb)

end EngineTree

namespace ConsensusEngine

open EngineTree (KeepsUp Announces announced Rooted Watches)

variable {E : Env} {W : World} {e : ConsensusEngine E} {t : EngineTree E} {h : B256}

/-- the event of an answer makes the sync target canonical -/
theorem Announces.follows {calls : List Insertion} {answer : EngineTree.Answer}
    (ha : Announces W t h calls answer e.tree) : KeepsUp W t h (e.onMaybeTreeEvent (announced answer)).tree := by
  obtain ⟨hmade, hquiet, htarget⟩ := KeepsUp.of_announces ha
  cases hevent : announced answer with
  | none => exact hquiet (by simp [hevent])
  | some event =>
    cases event with
    | treeAction action =>
      obtain ⟨target⟩ := action
      have heq := htarget target hevent
      subst heq
      exact hmade hevent
    | download request =>
      have htree : (e.onMaybeTreeEvent (some (.download request))).tree = e.tree := by cases request <;> rfl
      rw [htree]
      refine hquiet fun target => ?_
      rw [hevent]
      rintro ⟨⟩

/-- **One unlocked block.** -/
theorem insertUnlocked_keepsUp (hs : KeepsUp W t h e.tree) (sched : StateRoot.Schedule) (hash : B256) :
    KeepsUp W t h (e.insertUnlocked sched hash).tree := by
  have hknown := hs.buffer
  have htaken := hknown.shrinks (BlockBuffer.removeBlock_removes e.tree.blockBuffer hash).toShrinks
  have hcases := BlockBuffer.removeBlock_cases e.tree.blockBuffer hash
  unfold insertUnlocked
  cases hr : e.tree.blockBuffer.removeBlock hash with
  | mk taken buffer =>
    rw [hr] at hcases htaken
    cases taken with
    | none => exact hs.withBuffer htaken
    | some x =>
      obtain ⟨block, witness⟩ := x
      have hblock : W.Knows block.toSealedHeader := by
        rcases hcases with ⟨-, hnone⟩ | ⟨b, w, hb, -, -, hsome, -⟩
        · cases hnone
        · cases hsome
          exact (hknown.blocks _ _ hb).2
      simp only [releaseParked_tree]
      obtain ⟨calls, hw, hstage⟩ := hs.withBuffer htaken
      rcases hstage with ⟨call, hmem, hcall⟩ | ⟨s, hat, hne⟩
      · -- a fatal call stays in the history
        have hreceives := EngineTree.onDownloadedBlock_receives (e.tree.withBuffer buffer) sched block witness
        have hkeeps := Watches.keeps W t h calls
        have hdone := hkeeps.receives hreceives hblock ⟨[], by rwa [List.append_nil]⟩
        have hfollow := onMaybeTreeEvent_follows
          { e with tree := ((e.tree.withBuffer buffer).onDownloadedBlock sched block witness).2 }
          (announced ((e.tree.withBuffer buffer).onDownloadedBlock sched block witness).1)
        obtain ⟨more, hmore⟩ := hfollow.keeps (P := fun t' => ∃ more, Watches W t h (calls ++ more) t')
          (fun target => hkeeps.makeCanonical target hdone) hdone
        exact ⟨_, hmore, Or.inl ⟨call, List.mem_append_left _ hmem, hcall⟩⟩
      · exact Announces.follows (e := { e with
          tree := ((e.tree.withBuffer buffer).onDownloadedBlock sched block witness).2 })
          (EngineTree.onDownloadedBlock_announces hw hat hne sched hblock witness)

/-- **A payload**, where the sync target is not stored yet. -/
theorem onNewPayload_keepsUp (hw : Watches W t h [] e.tree) (hat : EngineTree.At t h [] e.tree .waiting)
    (sched : StateRoot.Schedule) (payload : E.validator.ExecutionData) (tx : ℕ)
    (hknown : ∀ b, E.validator.ensureWellFormedPayload payload = .ok b → W.Knows b.toSealedHeader) :
    KeepsUp W t h (e.onEngineMessage sched (.newPayload payload tx)).tree := by
  have htaken : Watches W t h [] (e.tree.witnessTaken payload) := hw.congr rfl rfl rfl (hw.buffer.shrinks
    (BlockBuffer.removeWitness_removes e.tree.blockBuffer (E.validator.blockHash payload)).1.toShrinks)
  have ha := EngineTree.onNewPayload_announces htaken (hat.of_chain rfl) (by decide) sched payload
    (e.tree.takenWitness payload) hknown
  have hfollows := Announces.follows
    (e := { e.note (.newPayload payload tx) with tree := (e.tree.afterPayload sched payload).2 }) ha
  rw [← finishPayload_tree _ (E.validator.blockHash payload) (e.tree.takenWitness payload).isSome tx] at hfollows
  exact hfollows

/-- **A download outcome** other than a finalized block. -/
theorem onDownloadOutcome_keepsUp (hs : KeepsUp W t h e.tree) (sched : StateRoot.Schedule) {data : DownloadData}
    (hknown : OutcomeKnown W data) (hfinalized : ∀ block ancestors, data ≠ .finalizedBlock block ancestors) :
    KeepsUp W t h (e.onDownloadOutcome sched data).2.tree := by
  apply onDownloadOutcome_tree (P := fun _ t' => KeepsUp W t h t') _ sched data
  · have hreceived := receiveOutcome_received e sched data
    generalize e.receiveOutcome sched data = received at hreceived ⊢
    cases hreceived with
    | @finalized block ancestors hrecover => exact absurd rfl (hfinalized block ancestors)
    | @unrecovered block ancestors hrecover => exact absurd rfl (hfinalized block ancestors)
    | buffered hrecover => exact hs.withBuffer (hs.buffer.insertBlock hknown)
    | dropped hrecover => exact hs
    | lookupFailed hmissing => exact hs
    | complete hmissing => exact hs.withBuffer (hs.buffer.insertWitness _ _ _)
    | incomplete hmissing hne => exact hs.withBuffer (hs.buffer.insertWitness _ _ _)
    | @bytecode codeHash bytecode =>
      simp only [EngineTree.onBytecode]
      cases hwrite : e.tree.provider.insertBytecode codeHash bytecode with
      | error error => exact hs
      | ok provider =>
        have hstate : provider.chainState = e.tree.provider.chainState := by
          unfold RessProvider.insertBytecode at hwrite
          cases hdb : e.tree.provider.database.insertBytecode codeHash bytecode with
          | error error =>
            rw [hdb] at hwrite
            cases hwrite
          | ok database =>
            rw [hdb] at hwrite
            cases hwrite
            rfl
        refine hs.congr ?_ rfl rfl (hs.buffer.onBytecodeReceived codeHash)
        simp only [EngineTree.chain, hstate]
  · exact fun e hash _ he => insertUnlocked_keepsUp he sched hash

/-- a block that is stored already is not inserted again -/
theorem insertUnlocked_seen (e : ConsensusEngine E) (sched : StateRoot.Schedule) (hash : B256)
    (hkeyed : e.tree.blockBuffer.Keyed) (hstored : e.tree.Stored hash) :
    (e.insertUnlocked sched hash).tree.chain = e.tree.chain := by
  have hcases := BlockBuffer.removeBlock_cases e.tree.blockBuffer hash
  unfold insertUnlocked
  cases hr : e.tree.blockBuffer.removeBlock hash with
  | mk taken buffer =>
    rw [hr] at hcases
    cases taken with
    | none => rfl
    | some x =>
      obtain ⟨block, witness⟩ := x
      have hblock : block.hash = hash := by
        rcases hcases with ⟨-, hnone⟩ | ⟨b, w, hb, -, -, hsome, -⟩
        · cases hnone
        · cases hsome
          exact hkeyed _ _ hb
      obtain ⟨hchain, hevent⟩ := EngineTree.onDownloadedBlock_seen (e.tree.withBuffer buffer) sched block witness
        (hblock ▸ hstored)
      unfold announced at hevent
      simp only [releaseParked_tree, hevent]
      exact hchain

/-- **A finalized download** makes its block the head, whatever the head was. -/
theorem onDownloadOutcome_finalized (e : ConsensusEngine E) (sched : StateRoot.Schedule) (block : Block)
    (ancestors : List SealedHeader) (hkeyed : e.tree.blockBuffer.Keyed) :
    (e.onDownloadOutcome sched (.finalizedBlock block ancestors)).2.tree.chain =
      if E.tryRecover block = true then e.tree.chain.onFinalizedBlock block ancestors else e.tree.chain := by
  simp only [onDownloadOutcome, receiveOutcome]
  by_cases hrecover : E.tryRecover block = true
  · have hstored : (e.tree.onFinalizedBlock block ancestors).Stored block.hash :=
      (EngineTree.onFinalizedBlock_stored e.tree block ancestors block.hash).2 (Or.inl rfl)
    simp only [if_pos hrecover, insertAllUnlocked, sched.order.list_singleton, List.foldl_cons, List.foldl_nil]
    rw [insertUnlocked_seen { e with tree := e.tree.onFinalizedBlock block ancestors } sched block.hash hkeyed hstored]
    exact EngineTree.onFinalizedBlock_chain e.tree block ancestors
  · simp only [if_neg hrecover]

/-- so if it is the only way in which a block was stored, that block is the head -/
theorem onDownloadOutcome_finalized_head (e : ConsensusEngine E) (sched : StateRoot.Schedule) (block : Block)
    (ancestors : List SealedHeader) (hkeyed : e.tree.blockBuffer.Keyed) (hnew : ¬ e.tree.Stored h)
    (hstored : (e.onDownloadOutcome sched (.finalizedBlock block ancestors)).2.tree.Stored h) :
    (e.onDownloadOutcome sched (.finalizedBlock block ancestors)).2.tree.canonicalHead.hash = h := by
  have hchain := onDownloadOutcome_finalized e sched block ancestors hkeyed
  generalize (e.onDownloadOutcome sched (.finalizedBlock block ancestors)).2.tree = t at hchain hstored
  have hstored' : t.chain.state.Stored h := hstored
  show t.chain.head.hash = h
  split_ifs at hchain with hrecover
  · rw [hchain] at hstored' ⊢
    obtain ⟨b, hb⟩ := hstored'
    rw [Chain.onFinalizedBlock_blocks, FMap.get_set] at hb
    split_ifs at hb with hh
    · exact hh.symm
    · exact absurd ⟨b, hb⟩ hnew
  · rw [hchain] at hstored'
    exact absurd hstored' hnew

/-! ## Stored blocks stay linked -/

/-- a finalized block is genesis or one above its parent -/
def OutcomeLinked (W : World) : DownloadData → Prop
  | .finalizedBlock block _ => block.hash = W.genesis.hash ∨ W.Link block.hash block.parentHash
  | _ => True

theorem receiveOutcome_rooted (hr : Rooted W e.tree) (sched : StateRoot.Schedule) {data : DownloadData}
    (hknown : OutcomeKnown W data) (hlinked : OutcomeLinked W data) : Rooted W (e.receiveOutcome sched data).2.tree := by
  have hwf := receiveOutcome_wf hr.toWf sched hknown
  have hreceived := receiveOutcome_received e sched data
  generalize e.receiveOutcome sched data = received at hreceived hwf ⊢
  cases hreceived with
  | @finalized block ancestors hrecover =>
    refine ⟨hwf, ?_⟩
    intro k b hb
    simp only [EngineTree.onFinalizedBlock_chain, Chain.onFinalizedBlock_blocks, FMap.get_set] at hb
    split_ifs at hb with hk
    · cases hb
      rw [hk]
      exact hlinked
    · exact hr.linked k b hb
  | unrecovered hrecover => exact hr
  | buffered hrecover => exact ⟨hwf, hr.linked⟩
  | dropped hrecover => exact hr
  | lookupFailed hmissing => exact hr
  | complete hmissing => exact ⟨hwf, hr.linked⟩
  | incomplete hmissing hne => exact ⟨hwf, hr.linked⟩
  | @bytecode codeHash bytecode =>
    refine hr.of_blocks hwf fun k b hb => ?_
    have hchain : (e.tree.onBytecode codeHash bytecode).2.chain = e.tree.chain := by
      unfold EngineTree.onBytecode RessProvider.insertBytecode
      cases e.tree.provider.database.insertBytecode codeHash bytecode <;> rfl
    simp only [hchain] at hb
    exact hb

theorem insertUnlocked_rooted (hr : Rooted W e.tree) (sched : StateRoot.Schedule) (hash : B256) :
    Rooted W (e.insertUnlocked sched hash).tree := by
  have htaken := hr.withBuffer
    (hr.buffer.shrinks (BlockBuffer.removeBlock_removes e.tree.blockBuffer hash).toShrinks)
  rcases insertUnlocked_cases e sched hash with ⟨-, heq⟩ | ⟨b, w, answer, t, hb, -, -, hreceives, hf⟩
  · rw [heq]
    exact htaken
  · have hreceived := (Rooted.keeps W).receives hreceives (hr.buffer.blocks _ _ hb).2 htaken
    exact hf.keeps (fun target => hreceived.makeCanonical target) hreceived

end ConsensusEngine

namespace Node

open EngineTree (Rooted KeepsUp MeetsCanonical Watches)
open ConsensusEngine (OutcomeLinked)

variable {E : Env} {W : World}

/-- what is delivered is known, and a finalized block is linked -/
def EventLinked (W : World) (n : Node E) (event : NodeEvent E) : Prop :=
  EventKnown W n event ∧
    ∀ io data, event = .poll io → n.engine.delivered io = some data → OutcomeLinked W data

/-- only known blocks are in the node, and the stored ones are linked -/
structure Planted (W : World) (n : Node E) : Prop extends Grounded W n where
  linked : n.engine.tree.chain.state.Linked W

theorem Planted.step {n : Node E} (hp : Planted W n) {event : NodeEvent E} (hlinked : EventLinked W n event) :
    Planted W (n.step event) := by
  refine ⟨hp.toGrounded.step hlinked.1, ?_⟩
  suffices hroot : Rooted W (n.step event).engine.tree from hroot.linked
  have hstart : Rooted W n.engine.tree := ⟨hp.wf, hp.linked⟩
  refine step_tree n event hstart (fun t _ _ ht => ⟨⟨ht.chain, ht.buffer⟩, ht.linked⟩) ?_ ?_
  · exact fun sched t t' message hmem ht hm => ht.messages (hp.fed.queue message hmem) hm
  · rintro io data rfl hdata
    have hafter : Rooted W (n.engine.afterPoll io).tree := ⟨⟨hp.wf.chain, hp.wf.buffer⟩, hp.linked⟩
    apply ConsensusEngine.onDownloadOutcome_tree (P := fun _ t => Rooted W t) _ io.sched data
    · exact ConsensusEngine.receiveOutcome_rooted hafter io.sched (hlinked.1 data hdata) (hlinked.2 io data rfl hdata)
    · exact fun e hash _ he => ConsensusEngine.insertUnlocked_rooted he io.sched hash

theorem planted_launch (W : World) (database : RessDatabase) : Planted W (launch E database W.genesis) :=
  ⟨grounded_launch W database, (Chain.sound_launch W).linked⟩

/-! ## The sync target lands -/

/-- a sync target that the event stores is the head after it, if no call was fatal and its chain met the canonical chain
when it was stored -/
def SyncTargetLands (n : Node E) (event : NodeEvent E) : Prop :=
  ∀ h calls, n.engine.tree.isSyncTargetHead h = true → ¬ n.engine.tree.Stored h →
    (n.step event).engine.tree.Stored h →
    (n.step event).engine.tree.insertions = n.engine.tree.insertions ++ calls →
    (∀ call ∈ calls, ¬ call.IsFatal E) → MeetsCanonical n.engine.tree calls h →
    (n.step event).engine.tree.canonicalHead.hash = h

/-- a forkchoice update stores nothing -/
theorem forkchoice_notStored {e : ConsensusEngine E} {h : B256} (hnew : ¬ e.tree.Stored h) (sched : StateRoot.Schedule)
    (state : ForkchoiceState) (attrs : Option E.validator.PayloadAttributes) (tx version : ℕ) :
    ¬ (e.onEngineMessage sched (.forkchoiceUpdated state attrs tx version)).tree.Stored h := by
  intro hstored
  have hmessages := ConsensusEngine.onEngineMessage_messages e sched (.forkchoiceUpdated state attrs tx version)
  generalize (e.onEngineMessage sched (.forkchoiceUpdated state attrs tx version)).tree = t at hmessages hstored
  cases hmessages with
  | @forkchoice _ _ _ _ _ t₁ t₂ _ hu htrack hf =>
    have hkeep : t.storedHashes = t₂.storedHashes := by
      cases hf with
      | same => rfl
      | made target => exact EngineTree.makeCanonical_storedHashes t₂ target
    have hstored₂ : h ∈ t₂.storedHashes := hkeep ▸ hstored
    exact hnew (hu.shrinks.stored h (htrack.shrinks.stored h hstored₂))

theorem Planted.syncTargetLands {n : Node E} (hp : Planted W n) {event : NodeEvent E} (hlinked : EventLinked W n event) :
    SyncTargetLands n event := by
  intro h calls htarget hnew hstored hcalls hfatal hmeets
  cases event with
  | arrive message => exact absurd hstored hnew
  | poll io =>
    -- the tree once the downloader has been polled is the one the event starts from
    have hw : Watches W n.engine.tree h [] (n.engine.afterPoll io).tree :=
      ⟨hp.wf.buffer, htarget, (List.append_nil _).symm, Chain.Since.start hp.wf.chain hp.linked⟩
    have hat : EngineTree.At n.engine.tree h [] (n.engine.afterPoll io).tree .waiting := ⟨rfl, hnew⟩
    have hstart : KeepsUp W n.engine.tree h (n.engine.afterPoll io).tree := ⟨[], hw, Or.inr ⟨_, hat, by decide⟩⟩
    rcases step_poll n io with ⟨-, heq⟩ | ⟨data, hdata, heq, -⟩ | ⟨-, ⟨message, e, hhandles, hcore, heq⟩ | hcore⟩
    · rw [heq] at hstored
      exact absurd hstored hnew
    · rw [heq] at hstored hcalls ⊢
      have hknown := hlinked.1 data hdata
      by_cases hfinalized : ∃ block ancestors, data = .finalizedBlock block ancestors
      · obtain ⟨block, ancestors, rfl⟩ := hfinalized
        exact ConsensusEngine.onDownloadOutcome_finalized_head (n.engine.afterPoll io) io.sched block ancestors
          hp.wf.buffer.keyed hnew hstored
      · have hnot : ∀ block ancestors, data ≠ .finalizedBlock block ancestors :=
          fun block ancestors hd => hfinalized ⟨block, ancestors, hd⟩
        exact (ConsensusEngine.onDownloadOutcome_keepsUp hstart io.sched hknown hnot).lands hstored hcalls hfatal hmeets
    · have htree : e.tree = (n.engine.afterPoll io).tree := congrArg Prod.fst hcore
      rw [heq] at hstored hcalls ⊢
      cases message with
      | newPayload payload tx =>
        have hknown := hp.fed.queue _ (ConsensusEngine.handles_mem hhandles)
        exact (ConsensusEngine.onNewPayload_keepsUp (htree ▸ hw) (htree ▸ hat) io.sched payload tx hknown).lands
          hstored hcalls hfatal hmeets
      | forkchoiceUpdated state attrs tx version =>
        have hnew' : ¬ e.tree.Stored h := by
          rw [htree]
          exact hnew
        exact absurd hstored (forkchoice_notStored hnew' io.sched state attrs tx version)
      | transitionConfigurationExchanged =>
        have hnew' : ¬ e.tree.Stored h := by
          rw [htree]
          exact hnew
        exact absurd hstored hnew'
    · have htree : (n.step (.poll io)).engine.tree = (n.engine.afterPoll io).tree := congrArg Prod.fst hcore
      rw [htree] at hstored
      exact absurd hstored hnew

/-- **The sync target becomes canonical.** In every run, an event that stores the sync target makes it the head: as a
payload, as a released download, as a parked payload, as a finalized block or as a buffered descendant. -/
theorem sync_target_lands (W : World) (database : RessDatabase) (events : List (NodeEvent E)) (event : NodeEvent E)
    (hevents : Run.AllSteps step (EventLinked W) (launch E database W.genesis) (events ++ [event])) :
    SyncTargetLands (Run.run step (launch E database W.genesis) events) event := by
  obtain ⟨hbefore, hlast, -⟩ := Run.allSteps_append.1 hevents
  have hplanted : Planted W (Run.run step (launch E database W.genesis) events) :=
    Run.run_invariant (I := Planted W) (fun _ _ hp hok => hp.step hok) (planted_launch W database) hbefore
  exact hplanted.syncTargetLands hlast

/-! ## A sync target that is stored as a descendant -/

open Chain (mainBlock twoBranches)

/-- an unknown head, block 2, is downloaded with its witness, and then its parent, of which the witness is still out -/
def belowTarget : List (NodeEvent smallEnv) :=
  [forkchoice (mainBlock 2).hash 0 1, idle false, blockReady 2, witnessReady 2, blockReady 1]

theorem eventLinked_outcome {n : Node E} {io : ConsensusEngine.Io} (data : DownloadData)
    (hdata : n.engine.delivered io = some data) (hknown : ConsensusEngine.OutcomeKnown W data)
    (hlinked : OutcomeLinked W data) : EventLinked W n (.poll io) := by
  refine ⟨fun data' h => ?_, ?_⟩
  · cases hdata.symm.trans h
    exact hknown
  · rintro _ data' ⟨rfl⟩ h
    cases hdata.symm.trans h
    exact hlinked

theorem eventLinked_none {n : Node E} {io : ConsensusEngine.Io} (hdata : n.engine.delivered io = none) :
    EventLinked W n (.poll io) := by
  refine ⟨fun data h => ?_, ?_⟩
  · cases hdata.symm.trans h
  · rintro _ data ⟨rfl⟩ h
    cases hdata.symm.trans h

theorem belowTarget_linked :
    Run.AllSteps step (EventLinked twoBranches) (launch smallEnv ⟨∅, none, none⟩ twoBranches.genesis)
      (belowTarget ++ [witnessReady 1]) := by
  have hknown : ∀ {n : ℕ}, n < 400 → ConsensusEngine.OutcomeKnown twoBranches (.fullBlock (mainBlock n)) :=
    fun hn => Chain.mainBlock_knows hn
  refine ⟨⟨trivial, by rintro io data ⟨⟩⟩, eventLinked_none (by decide +kernel),
    eventLinked_outcome (.fullBlock (mainBlock 2)) (by decide +kernel) (hknown (by omega)) trivial,
    eventLinked_outcome (.witness (mainBlock 2).hash smallWitness) (by decide +kernel) trivial trivial,
    eventLinked_outcome (.fullBlock (mainBlock 1)) (by decide +kernel) (hknown (by omega)) trivial,
    eventLinked_outcome (.witness (mainBlock 1).hash smallWitness) (by decide +kernel) trivial trivial, trivial⟩

/-- the chain of block 2 meets the canonical chain in genesis -/
theorem belowTarget_meets : MeetsCanonical (smallNode belowTarget).engine.tree
    [⟨mainBlock 1, some smallWitness, ∅, .ok (.inserted .valid)⟩,
      ⟨mainBlock 2, some smallWitness, ∅, .ok (.inserted .valid)⟩] (mainBlock 2).hash := by
  intro pre b post hsplit hb
  have hvalidated : [mainBlock 1, mainBlock 2] = pre ++ b :: post := hsplit
  have hpre : pre = [mainBlock 1] ∧ b = mainBlock 2 := by
    cases pre with
    | nil =>
      simp only [List.nil_append, List.cons.injEq] at hvalidated
      rw [← hvalidated.1] at hb
      exact absurd hb (by decide)
    | cons x pre =>
      cases pre with
      | nil =>
        simp only [List.cons_append, List.nil_append, List.cons.injEq] at hvalidated
        exact ⟨by rw [hvalidated.1], hvalidated.2.1.symm⟩
      | cons y pre => simp at hvalidated
  obtain ⟨rfl, rfl⟩ := hpre
  have hhead : (smallNode belowTarget).engine.tree.canonicalHead.hash = (mainBlock 0).hash := by decide +kernel
  refine ⟨(mainBlock 0).hash, ?_, hhead ▸ Relation.ReflTransGen.refl⟩
  refine Relation.ReflTransGen.head ⟨mainBlock 2, by decide +kernel, rfl⟩ (Relation.ReflTransGen.single ?_)
  exact ⟨mainBlock 1, by decide +kernel, rfl⟩

/-- the parent's witness arrives: the parent is stored, and the sync target behind it -/
theorem sync_target_lands_below :
    (smallNode (belowTarget ++ [witnessReady 1])).engine.tree.canonicalHead.hash = (mainBlock 2).hash := by
  have hlands := sync_target_lands twoBranches ⟨∅, none, none⟩ belowTarget (witnessReady 1) belowTarget_linked
  have hrun : (smallNode belowTarget).step (witnessReady 1) = smallNode (belowTarget ++ [witnessReady 1]) := by
    unfold smallNode
    rw [Run.run_append, Run.run_cons, Run.run_nil]
  rw [← hrun]
  refine hlands (mainBlock 2).hash [⟨mainBlock 1, some smallWitness, ∅, .ok (.inserted .valid)⟩,
    ⟨mainBlock 2, some smallWitness, ∅, .ok (.inserted .valid)⟩] ?_ ?_ ?_ ?_ ?_ belowTarget_meets
  · decide +kernel
  · exact ChainState.sealedHeader_none.1 (by decide +kernel)
  · exact ChainState.sealedHeader_isSome.1 (by decide +kernel)
  · decide +kernel
  · intro call hcall
    rintro ⟨kind, fatal, hkind, -⟩
    simp only [List.mem_cons, List.not_mem_nil, or_false] at hcall
    rcases hcall with rfl | rfl
    · cases hkind
    · cases hkind

end Node

end Ress
