/-
The buffer holds pending blocks.

A block leaves the buffer when it is inserted from there. It may also be stored while it stays: by a payload that takes
the witness out of the buffer and leaves the block, or by a finalized download. And a downloaded block may enter the
buffer after it has been stored.

- `Tidy U`: no block is both buffered and stored, but for one that is ready and is tried next.
- `runs_pending`: so it is, with nothing to be tried, in every state of a run that stays clear of these steps.
- `overtaken_leaves_copy`: a run in which a payload overtakes the download of its block, which then stays behind.
-/
import Ress.Engine.Connectable

namespace Ress

namespace EngineTree

open BlockBuffer (Frees EmptyAt)

variable {E : Env} {t t' : EngineTree E} {b : Block}

/-- the block is in the buffer, and validated -/
def Leftover (t : EngineTree E) (k : B256) : Prop := (∃ b, t.blockBuffer.blocks.get k = some b) ∧ t.Stored k

/-- no hash is both a key of the buffer and a block of the store -/
def PendingOnly (t : EngineTree E) : Prop := ∀ k, ¬ t.Leftover k

/-- the only block that is both buffered and stored is the one that is still to be tried, and it is ready -/
structure Tidy (U : Set B256) (t : EngineTree E) : Prop where
  keyed : t.blockBuffer.Keyed
  leftover : ∀ k, t.Leftover k → U = {k} ∧ t.blockBuffer.Ready k

theorem Tidy.pendingOnly (h : Tidy ∅ t) : t.PendingOnly :=
  fun k hk => Set.singleton_ne_empty k (h.leftover k hk).1.symm

theorem Tidy.of_pendingOnly (hkeyed : t.blockBuffer.Keyed) (h : t.PendingOnly) (U : Set B256) : Tidy U t :=
  ⟨hkeyed, fun k hk => absurd hk (h k)⟩

/-- nothing new is buffered or stored -/
theorem Tidy.shrinks (h : Tidy ∅ t) (hs : Shrinks t t') : Tidy ∅ t' := by
  refine Tidy.of_pendingOnly (hs.frees.keyed h.keyed) ?_ ∅
  rintro k ⟨⟨b, hb⟩, hk⟩
  refine h.pendingOnly k ⟨⟨b, ?_⟩, hs.stored k hk⟩
  rw [← (hs.frees.same_of_block hb).block]
  exact hb

/-- **One insertion.** A block that is stored must not be in the buffer before. -/
theorem Tidy.inserts (h : Tidy ∅ t) {mw : Option ExecutionWitness}
    {r : Except InsertBlockErrorKind InsertPayloadOk} (hi : Inserts t b mw r t')
    (hfree : r = .ok (.inserted .valid) → t.blockBuffer.blocks.get b.hash = none) : Tidy ∅ t' := by
  refine Tidy.of_pendingOnly (hi.keyed h.keyed) ?_ ∅
  rintro k ⟨⟨x, hx⟩, hk⟩
  have hk' : k ∈ t'.storedHashes := hk
  rcases hi.effects with ⟨hbuffer, hstored⟩ | ⟨hvalid, hbuffer, hstored⟩ | ⟨hnew, hbuffer, hstored⟩
  · rw [hbuffer] at hx
    rw [hstored] at hk'
    exact h.pendingOnly k ⟨⟨x, hx⟩, hk'⟩
  · rw [hbuffer] at hx
    rw [hstored] at hk'
    rcases hk' with rfl | hk'
    · cases (hfree hvalid).symm.trans hx
    · exact h.pendingOnly k ⟨⟨x, hx⟩, hk'⟩
  · rw [hbuffer] at hx
    rw [hstored] at hk'
    by_cases hkb : k = b.hash
    · exact hnew (hkb ▸ hk')
    · rcases bufferWith_other t b mw hkb with hsame | hempty
      · exact h.pendingOnly k ⟨⟨x, hsame.block.symm.trans hx⟩, hk'⟩
      · cases hempty.block.symm.trans hx

theorem Tidy.framed : Framed (E := E) (Tidy ∅) :=
  Framed.of_shrinks (fun h => h.keyed) (fun hs h => h.shrinks hs) fun hi he h => h.inserts hi fun _ => he.block

/-! ## Payloads -/

/-- the payload's block is in the buffer, and it validates with the witness that the payload takes from there -/
def LeavesCopy (t : EngineTree E) (sched : StateRoot.Schedule) (payload : E.validator.ExecutionData) : Prop :=
  ∃ b w, E.validator.ensureWellFormedPayload payload = .ok b ∧ (∃ x, t.blockBuffer.blocks.get b.hash = some x) ∧
    (t.blockBuffer.removeWitness b.hash).1 = some w ∧ t.lookupInvalid (t.payloadCheck b) = none ∧
    t.Validates sched b w

theorem Tidy.onNewPayload (h : Tidy ∅ t) (sched : StateRoot.Schedule) {payload : E.validator.ExecutionData}
    (hclear : ¬ t.LeavesCopy sched payload) :
    Tidy ∅ (t.afterPayload sched payload).2 := by
  have hblocks := (BlockBuffer.removeWitness_removes t.blockBuffer (E.validator.blockHash payload)).2.2
  have htake : Tidy ∅ (t.witnessTaken payload) := by
    refine ⟨?_, ?_⟩
    · intro k b hb
      exact h.keyed k b (hblocks ▸ hb)
    · rintro k ⟨⟨b, hb⟩, hk⟩
      exact absurd ⟨⟨b, hblocks ▸ hb⟩, hk⟩ (h.pendingOnly k)
  refine Tidy.framed.onNewPayload htake sched payload _ ?_
  intro b cache t₂ hb hn hi
  refine (Tidy.framed.cache htake).inserts hi ?_
  -- a buffered block that validates is the case excluded
  intro hvalid
  obtain ⟨w, hw, hchecks⟩ := insertBlock_valid hvalid
  cases hx : t.blockBuffer.blocks.get b.hash with
  | none => exact (congrArg (fun m => m.get b.hash) hblocks).trans hx
  | some x =>
    rw [payloadCheck_withBuffer t b hblocks] at hn
    refine absurd ⟨b, w, hb, ⟨x, hx⟩, ?_, hn, hchecks⟩ hclear
    rw [E.validator.wellFormed_hash payload b hb]
    exact hw

end EngineTree

namespace ConsensusEngine

open EngineTree (Tidy PendingOnly Framed Follows)

variable {E : Env} {e : ConsensusEngine E}

/-! ## Messages and outcomes -/

/-- a payload leaves no copy of its block in the buffer -/
def MessageClear (t : EngineTree E) (sched : StateRoot.Schedule) : BeaconEngineMessage E → Prop
  | .newPayload payload _ => ¬ t.LeavesCopy sched payload
  | _ => True

theorem onEngineMessage_tidy (h : Tidy ∅ e.tree) (sched : StateRoot.Schedule) {message : BeaconEngineMessage E}
    (hclear : MessageClear e.tree sched message) : Tidy ∅ (e.onEngineMessage sched message).tree := by
  refine onEngineMessage_shrinks Tidy.framed (fun hs h => h.shrinks hs) e sched message h ?_
  rintro payload tx rfl
  exact h.onNewPayload sched hclear

/-- a downloaded block that is stored already is ready, and so is a finalized block that is in the buffer -/
def OutcomeReady (t : EngineTree E) : DownloadData → Prop
  | .fullBlock block => E.tryRecover block = true → t.Stored block.hash → t.blockBuffer.Ready block.hash
  | .finalizedBlock block _ => E.tryRecover block = true → (∃ b, t.blockBuffer.blocks.get block.hash = some b) →
      t.blockBuffer.Ready block.hash
  | _ => True

theorem receiveOutcome_tidy (h : Tidy ∅ e.tree) (sched : StateRoot.Schedule) {data : DownloadData}
    (hready : OutcomeReady e.tree data) :
    Tidy (toTry (e.receiveOutcome sched data).1) (e.receiveOutcome sched data).2.tree := by
  have hsame : ∀ (t : EngineTree E) U, t.blockBuffer.blocks = e.tree.blockBuffer.blocks →
      t.provider.chainState = e.tree.provider.chainState → Tidy U t := by
    intro t U hblocks hchain
    refine Tidy.of_pendingOnly (fun k b hb => h.keyed k b (hblocks ▸ hb)) ?_ U
    rintro k ⟨⟨b, hb⟩, hk⟩
    refine h.pendingOnly k ⟨⟨b, hblocks ▸ hb⟩, ?_⟩
    unfold EngineTree.Stored at hk ⊢
    rwa [← hchain]
  have hreceived := receiveOutcome_received e sched data
  generalize e.receiveOutcome sched data = received at hreceived ⊢
  cases hreceived with
  | @finalized block ancestors hrecover =>
    rw [toTry_singleton]
    refine ⟨h.keyed, ?_⟩
    rintro k ⟨⟨b, hb⟩, hk⟩
    rcases (EngineTree.onFinalizedBlock_stored e.tree block ancestors k).1 hk with rfl | hk
    · exact ⟨rfl, hready hrecover ⟨b, hb⟩⟩
    · exact absurd ⟨⟨b, hb⟩, hk⟩ (h.pendingOnly k)
  | unrecovered hrecover => exact hsame _ _ rfl rfl
  | buffered hrecover =>
    rw [toTry_singleton]
    refine ⟨h.keyed.insertBlock _, ?_⟩
    rintro k ⟨⟨x, hx⟩, hk⟩
    rcases BlockBuffer.insertBlock_blocks hx with ⟨rfl, rfl⟩ | ⟨-, hold⟩
    · exact ⟨rfl, (BlockBuffer.insertBlock_self _ _).2.2 (hready hrecover hk)⟩
    · exact absurd ⟨⟨x, hold⟩, hk⟩ (h.pendingOnly k)
  | dropped hrecover => exact hsame _ _ rfl rfl
  | lookupFailed hmissing => exact hsame _ _ rfl rfl
  | complete hmissing => exact hsame _ _ rfl rfl
  | incomplete hmissing hne => exact hsame _ _ rfl rfl
  | @bytecode codeHash bytecode =>
    simp only
    unfold EngineTree.onBytecode RessProvider.insertBytecode
    cases e.tree.provider.database.insertBytecode codeHash bytecode with
    | error error => exact hsame _ _ rfl rfl
    | ok database => exact hsame _ _ rfl rfl

theorem insertUnlocked_tidy {U : Set B256} {hash : B256} (h : Tidy (insert hash U) e.tree)
    (sched : StateRoot.Schedule) : Tidy U (e.insertUnlocked sched hash).tree := by
  have hfrees := BlockBuffer.removeBlock_frees e.tree.blockBuffer hash
  have hgone : PendingOnly (e.tree.withBuffer (e.tree.blockBuffer.removeBlock hash).2) := by
    rintro k ⟨⟨b, hb⟩, hk⟩
    have hold : e.tree.blockBuffer.blocks.get k = some b := (hfrees.same_of_block hb).block.symm.trans hb
    obtain ⟨hU, hready⟩ := h.leftover k ⟨⟨b, hold⟩, hk⟩
    have hkh : hash = k := by
      have hmem : hash ∈ insert hash U := Set.mem_insert hash U
      rw [hU] at hmem
      exact hmem
    subst hkh
    cases hb.symm.trans (BlockBuffer.removeBlock_empty ⟨⟨b, hold⟩, hready⟩).block
  have htree := insertUnlocked_framed Tidy.framed e sched hash h.keyed
    (Tidy.of_pendingOnly (hfrees.keyed h.keyed) hgone ∅)
  exact Tidy.of_pendingOnly htree.keyed htree.pendingOnly U

end ConsensusEngine

namespace Node

open EngineTree (Tidy PendingOnly)
open ConsensusEngine (MessageClear OutcomeReady)

variable {E : Env}

/-- the step leaves no copy of a stored block in the buffer -/
def EventTidy (n : Node E) : NodeEvent E → Prop
  | .arrive _ => True
  | .poll io =>
    (∀ data, n.engine.delivered io = some data → OutcomeReady (n.engine.afterPoll io).tree data) ∧
      ∀ message, n.engine.handles io = some message → MessageClear (n.engine.afterPoll io).tree io.sched message

theorem tidy_step {n : Node E} (h : Tidy ∅ n.engine.tree) {event : NodeEvent E} (htidy : EventTidy n event) :
    Tidy ∅ (n.step event).engine.tree := by
  have hafter : ∀ io, Tidy ∅ (n.engine.afterPoll io).tree := fun _ => ⟨h.keyed, h.leftover⟩
  refine step_core (P := fun x => Tidy ∅ x.1) n event h (fun io _ _ => hafter io) ?_ ?_
  · rintro io e message rfl hhandles hcore
    have htree : e.tree = (n.engine.afterPoll io).tree := congrArg Prod.fst hcore
    refine ConsensusEngine.onEngineMessage_tidy ?_ io.sched ?_
    · exact htree ▸ hafter io
    · exact htree ▸ htidy.2 message hhandles
  · rintro io data rfl hdata
    apply ConsensusEngine.onDownloadOutcome_tree (P := fun U t => Tidy U t) _ io.sched data
    · exact ConsensusEngine.receiveOutcome_tidy (hafter io) io.sched (htidy.1 data hdata)
    · exact fun e hash U he => ConsensusEngine.insertUnlocked_tidy he io.sched

/-- **The buffer holds only pending blocks**, in every state of every run in which no downloaded block enters the buffer
after it has been stored, no finalized download stores a block that stays buffered, and no payload validates a block
whose copy stays buffered. -/
theorem runs_pending (database : RessDatabase) (genesis : Block) (events : List (NodeEvent E))
    (hevents : Run.AllSteps step EventTidy (launch E database genesis) events) :
    Run.Always step (fun n => PendingOnly n.engine.tree) (launch E database genesis) events := by
  have hempty : ∀ k b, (launch E database genesis).engine.tree.blockBuffer.blocks.get k ≠ some b := by
    intro k b hb
    exact absurd hb (by simp [launch, ConsensusEngine.launch, EngineTree.launch, EngineTree.new, BlockBuffer.new])
  have hstart : Tidy ∅ (launch E database genesis).engine.tree :=
    ⟨fun k b hb => absurd hb (hempty k b), fun k hk => absurd hk.1.choose_spec (hempty k _)⟩
  exact Run.run_always (fun n event h htidy => tidy_step h htidy) (fun n h => h.pendingOnly) hstart hevents

/-! ## A block that is downloaded after its payload -/

open Chain (mainBlock twoBranches)

/-- a pass in which the request for this block is ready -/
def blockReady (n : ℕ) : NodeEvent smallEnv :=
  .poll ⟨{ Network.silent with fullBlock := fun hash => if hash = (mainBlock n).hash then some (mainBlock n) else none },
    false, StateRoot.sortedSchedule, none, none⟩

theorem eventTidy_outcome {n : Node E} {io : ConsensusEngine.Io} (data : DownloadData)
    (hdata : n.engine.delivered io = some data) (hready : OutcomeReady (n.engine.afterPoll io).tree data) :
    EventTidy n (.poll io) := by
  refine ⟨fun data' h => ?_, fun message h => ?_⟩
  · cases hdata.symm.trans h
    exact hready
  · simp [ConsensusEngine.handles, hdata] at h

theorem eventTidy_message {n : Node E} {io : ConsensusEngine.Io} (message : BeaconEngineMessage E)
    (hdata : n.engine.delivered io = none) (hhandles : n.engine.handles io = some message)
    (hclear : MessageClear (n.engine.afterPoll io).tree io.sched message) : EventTidy n (.poll io) := by
  refine ⟨fun data h => ?_, fun message' h => ?_⟩
  · cases hdata.symm.trans h
  · cases hhandles.symm.trans h
    exact hclear

/-- an unknown head is downloaded, first the block and then its witness; its child arrives as a payload -/
def downloadedRun : List (NodeEvent smallEnv) :=
  [forkchoice (mainBlock 1).hash 0 1, idle false, blockReady 1, witnessReady 1,
    .arrive (.newPayload (mainBlock 2, none) 2), idle false]

theorem runs_pending_downloaded :
    Run.Always step (fun n => PendingOnly n.engine.tree) (launch smallEnv ⟨∅, none, none⟩ twoBranches.genesis)
      downloadedRun := by
  apply runs_pending
  have hnew : (smallNode [forkchoice (mainBlock 1).hash 0 1, idle false]).engine.tree.provider.chainState.blocksByHash.get
      (mainBlock 1).hash = none := by decide +kernel
  have hnone : ((smallNode [forkchoice (mainBlock 1).hash 0 1, idle false, blockReady 1,
      witnessReady 1]).engine.tree.blockBuffer.removeWitness (mainBlock 2).hash).1 = none := by decide +kernel
  refine ⟨trivial, eventTidy_message (.forkchoiceUpdated ⟨(mainBlock 1).hash, 0, 0⟩ none 1 3)
    (by decide +kernel) rfl trivial, eventTidy_outcome (.fullBlock (mainBlock 1)) (by decide +kernel) ?_,
    eventTidy_outcome (.witness (mainBlock 1).hash smallWitness) (by decide +kernel) trivial, trivial,
    eventTidy_message (.newPayload (mainBlock 2, none) 2) (by decide +kernel) rfl ?_, trivial⟩
  · rintro - ⟨b, hb⟩
    cases hnew.symm.trans hb
  · rintro ⟨b, w, hb, -, hw, -⟩
    cases hb
    cases hnone.symm.trans hw

/-- the same head; its witness comes first, then its payload, and at last the block -/
def overtakenRun : List (NodeEvent smallEnv) :=
  [forkchoice (mainBlock 1).hash 0 1, idle false, witnessReady 1, .arrive (.newPayload (mainBlock 1, none) 2),
    idle false, blockReady 1]

/-- **A downloaded block stays behind.** The payload takes the witness, and its block is validated; the download of the
same block is still in flight, and then puts it into the buffer. -/
theorem overtaken_leaves_copy :
    (smallNode overtakenRun).terminated = none ∧ (smallNode overtakenRun).engine.responses.length = 2 ∧
      ¬ PendingOnly (smallNode overtakenRun).engine.tree := by
  refine ⟨by decide +kernel, by decide +kernel, ?_⟩
  intro h
  have hbuffered : (smallNode overtakenRun).engine.tree.blockBuffer.blocks.get (mainBlock 1).hash =
      some (mainBlock 1) := by decide +kernel
  have hstored : (smallNode overtakenRun).engine.tree.provider.chainState.blocksByHash.get (mainBlock 1).hash =
      some (mainBlock 1) := by decide +kernel
  exact h _ ⟨⟨_, hbuffered⟩, _, hstored⟩

end Node

end Ress
