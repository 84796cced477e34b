/-
The witnesses of the buffer belong to blocks that can still use them.

A witness goes with its block when the block is inserted, or evicted. What the buffer does not ask is whether there is
such a block when a witness arrives, or whether one will still come.

- `Useful`: the block of a witness is not validated, and it is in the buffer or its download is under way.
- `Frugal U`: every witness is useful, but for that of the block that is tried next.
- `runs_frugal`: so it is in every state of a run in which witnesses arrive for such blocks; and the buffer limit and
  the awaited blocks then bound the number of witnesses.
- `seen_leaves_witness`: a run in which the payload of a validated block has its witness downloaded again.
-/
import Ress.Engine.BufferRuns
import Ress.Engine.PendingOnly

namespace Ress

namespace EngineTree

open BlockBuffer (Frees EmptyAt)

variable {E : Env} {t t' : EngineTree E} {d d' : EngineDownloader} {U : Set B256}

/-- the block is in the buffer, or its download is under way -/
def Wanted (t : EngineTree E) (d : EngineDownloader) (k : B256) : Prop :=
  (∃ b, t.blockBuffer.blocks.get k = some b) ∨ d.AwaitsBlock k

/-- a witness for the hash can still be used -/
def Useful (t : EngineTree E) (d : EngineDownloader) (k : B256) : Prop := ¬ t.Stored k ∧ t.Wanted d k

/-- no witness is kept that cannot be used -/
def NoLeak (t : EngineTree E) (d : EngineDownloader) : Prop :=
  ∀ k w, t.blockBuffer.witnesses.get k = some w → t.Useful d k

/-- the only witness that may be of no use is that of the block that is still to be tried, and it goes with it -/
structure Frugal (d : EngineDownloader) (U : Set B256) (t : EngineTree E) : Prop where
  keyed : t.blockBuffer.Keyed
  useful : ∀ k w, t.blockBuffer.witnesses.get k = some w → t.Useful d k ∨ (U = {k} ∧ t.blockBuffer.Removable k)

theorem Frugal.noLeak (h : Frugal d ∅ t) : t.NoLeak d := by
  intro k w hw
  rcases h.useful k w hw with huse | ⟨hU, -⟩
  · exact huse
  · exact absurd hU.symm (Set.singleton_ne_empty k)

theorem Frugal.of_noLeak (hkeyed : t.blockBuffer.Keyed) (h : t.NoLeak d) (U : Set B256) : Frugal d U t :=
  ⟨hkeyed, fun k w hw => Or.inl (h k w hw)⟩

theorem Wanted.grows {k : B256} (h : t.Wanted d k) (hg : EngineDownloader.Grows d d') : t.Wanted d' k :=
  h.imp_right hg.awaitsBlock

theorem Frugal.grows (h : Frugal d U t) (hg : EngineDownloader.Grows d d') : Frugal d' U t :=
  ⟨h.keyed, fun k w hw => (h.useful k w hw).imp_left fun huse => ⟨huse.1, huse.2.grows hg⟩⟩

/-- nothing new is buffered or stored -/
theorem Frugal.shrinks (h : Frugal d ∅ t) (hs : Shrinks t t') : Frugal d ∅ t' := by
  refine Frugal.of_noLeak (hs.frees.keyed h.keyed) ?_ ∅
  intro k w hw
  have hsame := hs.frees.same_of_witness hw
  obtain ⟨hnew, hwanted⟩ := h.noLeak k w (hsame.witness.symm.trans hw)
  refine ⟨fun hk => hnew (hs.stored k hk), hwanted.imp_left ?_⟩
  rintro ⟨b, hb⟩
  exact ⟨b, hsame.block.trans hb⟩

/-- **One insertion.** A block that is stored must have no witness left in the buffer. -/
theorem Frugal.inserts (h : Frugal d ∅ t) {b : Block} {mw : Option ExecutionWitness}
    {r : Except InsertBlockErrorKind InsertPayloadOk} (hi : Inserts t b mw r t')
    (hfree : r = .ok (.inserted .valid) → t.blockBuffer.witnesses.get b.hash = none) : Frugal d ∅ t' := by
  refine Frugal.of_noLeak (hi.keyed h.keyed) ?_ ∅
  intro k w hw
  show k ∉ t'.storedHashes ∧ _
  unfold Wanted
  rcases hi.effects with ⟨hbuffer, hstored⟩ | ⟨hvalid, hbuffer, hstored⟩ | ⟨hnew, hbuffer, hstored⟩
  · rw [hbuffer] at hw ⊢
    rw [hstored]
    exact h.noLeak k w hw
  · rw [hbuffer] at hw ⊢
    rw [hstored]
    obtain ⟨hk, hwanted⟩ := h.noLeak k w hw
    refine ⟨?_, hwanted⟩
    rintro (rfl | hold)
    · cases (hfree hvalid).symm.trans hw
    · exact hk hold
  · rw [hbuffer] at hw ⊢
    rw [hstored]
    by_cases hkb : k = b.hash
    · subst hkb
      exact ⟨hnew, Or.inl ⟨b, (bufferWith_self t b mw).1⟩⟩
    · rcases bufferWith_other t b mw hkb with hsame | hempty
      · obtain ⟨hk, hwanted⟩ := h.noLeak k w (hsame.witness.symm.trans hw)
        refine ⟨hk, hwanted.imp_left ?_⟩
        rintro ⟨x, hx⟩
        exact ⟨x, hsame.block.trans hx⟩
      · cases hempty.witness.symm.trans hw

theorem Frugal.framed (d : EngineDownloader) : Framed (E := E) (Frugal d ∅) :=
  Framed.of_shrinks (fun h => h.keyed) (fun hs h => h.shrinks hs) fun hi he h => h.inserts hi fun _ => he.witness

/-- **A payload** takes its witness with it: the block that it validates has none left. -/
theorem Frugal.onNewPayload (h : Frugal d ∅ t) (sched : StateRoot.Schedule) (payload : E.validator.ExecutionData) :
    Frugal d ∅ (t.afterPayload sched payload).2 := by
  obtain ⟨hremoves, -, hblocks⟩ := BlockBuffer.removeWitness_removes t.blockBuffer (E.validator.blockHash payload)
  have htake : Frugal d ∅ (t.witnessTaken payload) := by
    refine Frugal.of_noLeak (fun k b hb => h.keyed k b (hblocks ▸ hb)) ?_ ∅
    intro k w hw
    obtain ⟨hk, hwanted⟩ := h.noLeak k w (hremoves.witnesses k w hw)
    refine ⟨hk, hwanted.imp_left ?_⟩
    rintro ⟨b, hb⟩
    exact ⟨b, (congrArg (fun m => m.get k) hblocks).trans hb⟩
  refine (Frugal.framed d).onNewPayload htake sched payload _ ?_
  intro b cache t₂ hb _ hi
  refine ((Frugal.framed d).cache htake).inserts hi ?_
  intro hvalid
  obtain ⟨w, hw, -⟩ := insertBlock_valid hvalid
  rw [E.validator.wellFormed_hash payload b hb]
  exact (BlockBuffer.removeWitness_taken hw).1

/-- a finalized block is stored, so its own witness is of no use but to itself -/
theorem NoLeak.onFinalizedBlock (h : t.NoLeak d) (hkeyed : t.blockBuffer.Keyed) {block : Block}
    (huse : ∀ w, t.blockBuffer.witnesses.get block.hash = some w → t.blockBuffer.Removable block.hash)
    (ancestors : List SealedHeader) : Frugal d {block.hash} (t.onFinalizedBlock block ancestors) := by
  refine ⟨hkeyed, fun k w hw => ?_⟩
  by_cases hk : k = block.hash
  · subst hk
    exact Or.inr ⟨rfl, huse w hw⟩
  · obtain ⟨hnew, hwant⟩ := h k w hw
    refine Or.inl ⟨fun hstored => ?_, hwant⟩
    rcases (onFinalizedBlock_stored t block ancestors k).1 hstored with hk' | hstored
    · exact hk hk'
    · exact hnew hstored

/-- a block is buffered, and is awaited no more -/
theorem NoLeak.bufferBlock (h : t.NoLeak d) {block : Block}
    (hawaits : ∀ k, k ≠ block.hash → d.AwaitsBlock k → d'.AwaitsBlock k) :
    (t.withBuffer (t.blockBuffer.insertBlock block)).NoLeak d' := by
  intro k w hw
  have hsame := (BlockBuffer.insertBlock_frees t.blockBuffer block).1.same_of_witness hw
  obtain ⟨hnew, hwant⟩ := h k w (hsame.witness.symm.trans hw)
  refine ⟨hnew, ?_⟩
  by_cases hk : k = block.hash
  · subst hk
    exact Or.inl ⟨block, (BlockBuffer.insertBlock_self _ _).1⟩
  · rcases hwant with ⟨x, hx⟩ | hd
    · exact Or.inl ⟨x, hsame.block.trans ((FMap.get_set_ne _ _ hk).trans hx)⟩
    · exact Or.inr (hawaits k hk hd)

/-- a witness is kept -/
theorem NoLeak.insertWitness (h : t.NoLeak d) (hkeyed : t.blockBuffer.Keyed) {blockHash : B256}
    (witness : ExecutionWitness) (missing : Finset B256)
    (huse : t.Useful d blockHash ∨
      U = {blockHash} ∧ (t.blockBuffer.insertWitness blockHash witness missing).Removable blockHash) :
    Frugal d U (t.withBuffer (t.blockBuffer.insertWitness blockHash witness missing)) := by
  refine ⟨hkeyed, fun k w hw => ?_⟩
  by_cases hk : k = blockHash
  · subst hk
    exact huse
  · exact Or.inl (h k w ((FMap.get_set_ne _ _ hk).symm.trans hw))

/-- every witness has its block in the buffer or awaited, so there are no more of them than of these -/
theorem NoLeak.card (h : t.NoLeak d) {limit : ℕ} (hcapped : BlockBuffer.Capped limit t.blockBuffer) :
    t.blockBuffer.witnesses.keys.card ≤ limit + d.awaitedBlocks.length := by
  have hsub : t.blockBuffer.witnesses.keys ⊆ t.blockBuffer.blocks.keys ∪ d.awaitedBlocks.toFinset := by
    intro k hk
    obtain ⟨w, hw⟩ := FMap.mem_keys.1 hk
    rcases (h k w hw).2 with ⟨b, hb⟩ | hawaits
    · exact Finset.mem_union_left _ (FMap.mem_keys.2 ⟨b, hb⟩)
    · exact Finset.mem_union_right _ (List.mem_toFinset.2 hawaits.mem)
  calc t.blockBuffer.witnesses.keys.card
      ≤ (t.blockBuffer.blocks.keys ∪ d.awaitedBlocks.toFinset).card := Finset.card_le_card hsub
    _ ≤ t.blockBuffer.blocks.keys.card + d.awaitedBlocks.toFinset.card := Finset.card_union_le _ _
    _ ≤ limit + d.awaitedBlocks.length := Nat.add_le_add hcapped.card (List.toFinset_card_le _)

end EngineTree

namespace ConsensusEngine

open EngineDownloader (Grows)
open EngineTree (Useful Wanted NoLeak Frugal)

variable {E : Env} {e : ConsensusEngine E}

/-! ## Messages and outcomes -/

/-- **A message** leaves no witness behind. -/
theorem onEngineMessage_frugal (h : Frugal e.downloader ∅ e.tree) (sched : StateRoot.Schedule)
    (message : BeaconEngineMessage E) :
    Frugal (e.onEngineMessage sched message).downloader ∅ (e.onEngineMessage sched message).tree := by
  refine Frugal.grows ?_ (onEngineMessage_grows e sched message)
  refine onEngineMessage_shrinks (Frugal.framed e.downloader) (fun hs h => h.shrinks hs) e sched message h ?_
  intro payload tx _
  exact h.onNewPayload sched payload

/-- a witness arrives for a block that can use it, or that takes it at once; a block that cannot be recovered, or that
is stored because it is finalized, leaves no witness -/
def OutcomeUseful (t : EngineTree E) (d : EngineDownloader) : DownloadData → Prop
  | .witness blockHash witness => ∀ missing, t.provider.missingCodeHashes (witness.bytecodeHashes E.codec) = .ok missing →
      t.Useful d blockHash ∨
        (missing = ∅ ∧ t.blockBuffer.missing blockHash = ∅ ∧ ∃ b, t.blockBuffer.blocks.get blockHash = some b)
  | .fullBlock block => E.tryRecover block = false →
      ∀ w, t.blockBuffer.witnesses.get block.hash = some w → t.Wanted d block.hash
  | .finalizedBlock block _ => E.tryRecover block = true →
      ∀ w, t.blockBuffer.witnesses.get block.hash = some w → t.blockBuffer.Removable block.hash
  | .bytecode _ _ => True

/-- **The receipt of an outcome.** The download handed out is awaited no more; all others are. -/
theorem receiveOutcome_frugal {d : EngineDownloader} (h : Frugal d ∅ e.tree) (sched : StateRoot.Schedule)
    {data : DownloadData} (hawaits : ∀ k, d.AwaitsBlock k →
      e.downloader.AwaitsBlock k ∨ ∃ block, data = .fullBlock block ∧ block.hash = k)
    (huseful : OutcomeUseful e.tree e.downloader data) :
    Frugal (e.receiveOutcome sched data).2.downloader (toTry (e.receiveOutcome sched data).1)
      (e.receiveOutcome sched data).2.tree := by
  refine Frugal.grows ?_ (receiveOutcome_grows e sched data)
  have hwanted : (∀ block, data ≠ .fullBlock block) → ∀ k, e.tree.Wanted d k → e.tree.Wanted e.downloader k := by
    intro hother k hk
    refine hk.imp_right fun hd => ?_
    rcases hawaits k hd with hk | ⟨block, heq, -⟩
    · exact hk
    · exact absurd heq (hother block)
  have hold : (∀ block, data ≠ .fullBlock block) → e.tree.NoLeak e.downloader := by
    intro hother k w hw
    obtain ⟨hnew, hk⟩ := h.noLeak k w hw
    exact ⟨hnew, hwanted hother k hk⟩
  have hreceived := receiveOutcome_received e sched data
  generalize e.receiveOutcome sched data = received at hreceived ⊢
  cases hreceived with
  | @finalized block ancestors hrecover =>
    rw [toTry_singleton]
    exact (hold fun _ heq => by cases heq).onFinalizedBlock h.keyed (huseful hrecover) ancestors
  | unrecovered hrecover => exact Frugal.of_noLeak h.keyed (hold fun _ heq => by cases heq) _
  | @buffered block hrecover =>
    refine Frugal.of_noLeak (h.keyed.insertBlock block) (h.noLeak.bufferBlock fun k hk hd => ?_) _
    refine (hawaits k hd).resolve_right ?_
    rintro ⟨_, heq, rfl⟩
    cases heq
    exact hk rfl
  | dropped hrecover =>
    refine Frugal.of_noLeak h.keyed ?_ _
    intro k w hw
    obtain ⟨hnew, hwant⟩ := h.noLeak k w hw
    refine ⟨hnew, ?_⟩
    rcases hwant with hx | hd
    · exact Or.inl hx
    · rcases hawaits k hd with hd | ⟨_, heq, rfl⟩
      · exact Or.inr hd
      · cases heq
        exact huseful hrecover w hw
  | lookupFailed hmissing => exact Frugal.of_noLeak h.keyed (hold fun _ heq => by cases heq) _
  | @complete blockHash witness hmissing =>
    rw [toTry_singleton]
    refine (hold fun _ heq => by cases heq).insertWitness h.keyed witness ∅ ?_
    -- nothing was missing before, and nothing is added
    exact (huseful ∅ hmissing).imp_right fun ⟨_, hm, hb⟩ => ⟨rfl, hb, ⟨witness, FMap.get_set_self _ _ _⟩, hm⟩
  | @incomplete blockHash witness missing hmissing hne =>
    refine (hold fun _ heq => by cases heq).insertWitness h.keyed witness missing (Or.inl ?_)
    exact (huseful missing hmissing).resolve_right fun hempty => hne hempty.1
  | @bytecode codeHash bytecode =>
    have hleak := hold fun _ heq => by cases heq
    simp only
    unfold EngineTree.onBytecode RessProvider.insertBytecode
    cases e.tree.provider.database.insertBytecode codeHash bytecode with
    | error error => exact Frugal.of_noLeak h.keyed hleak _
    | ok database => exact ⟨h.keyed, fun k w hw => Or.inl (hleak k w hw)⟩

/-- **One unlocked block** takes its witness along. -/
theorem insertUnlocked_frugal {U : Set B256} {hash : B256} (h : Frugal e.downloader (insert hash U) e.tree)
    (sched : StateRoot.Schedule) :
    Frugal (e.insertUnlocked sched hash).downloader U (e.insertUnlocked sched hash).tree := by
  have hfrees := BlockBuffer.removeBlock_frees e.tree.blockBuffer hash
  have htaken : NoLeak (e.tree.withBuffer (e.tree.blockBuffer.removeBlock hash).2) e.downloader := by
    intro k w hw
    have hsame := hfrees.same_of_witness hw
    rcases h.useful k w (hsame.witness.symm.trans hw) with ⟨hnew, hwanted⟩ | ⟨hU, hready⟩
    · refine ⟨hnew, hwanted.imp_left ?_⟩
      rintro ⟨b, hb⟩
      exact ⟨b, hsame.block.trans hb⟩
    · have hmem : hash ∈ insert hash U := Set.mem_insert hash U
      rw [hU] at hmem
      cases Set.mem_singleton_iff.1 hmem
      cases hw.symm.trans (BlockBuffer.removeBlock_empty hready).witness
  have htree := insertUnlocked_framed (Frugal.framed e.downloader) e sched hash h.keyed
    (Frugal.of_noLeak (hfrees.keyed h.keyed) htaken ∅)
  exact (Frugal.of_noLeak htree.keyed htree.noLeak U).grows (insertUnlocked_grows e sched hash)

end ConsensusEngine

namespace Node

open Chain (mainBlock twoBranches)
open EngineTree (Frugal NoLeak)
open ConsensusEngine (OutcomeUseful)

variable {E : Env}

/-- what the step hands to the engine leaves no witness behind -/
def EventUseful (n : Node E) : NodeEvent E → Prop
  | .arrive _ => True
  | .poll io => ∀ data, n.engine.delivered io = some data →
      OutcomeUseful (n.engine.afterPoll io).tree (n.engine.afterPoll io).downloader data

theorem frugal_step {n : Node E} (h : Frugal n.engine.downloader ∅ n.engine.tree) {event : NodeEvent E}
    (hnet : ∀ io, event = .poll io → io.network.Honest) (huseful : EventUseful n event) :
    Frugal (n.step event).engine.downloader ∅ (n.step event).engine.tree := by
  -- what is awaited is awaited after a poll, unless it is handed out
  have hidle : ∀ io, event = .poll io → n.engine.delivered io = none →
      Frugal (n.engine.afterPoll io).downloader ∅ (n.engine.afterPoll io).tree := by
    intro io hio hnone
    refine ⟨h.keyed, fun k w hw => Or.inl ?_⟩
    obtain ⟨hnew, hwanted⟩ := h.noLeak k w hw
    refine ⟨hnew, hwanted.imp_right fun hk => ?_⟩
    rcases EngineDownloader.poll_block (hnet io hio) hk with hk | ⟨block, hblock, -⟩
    · exact hk
    · cases hnone.symm.trans hblock
  refine step_core (P := fun x => Frugal x.2 ∅ x.1) n event h hidle ?_ ?_
  · intro io e message hio hhandles hcore
    have hafter := hidle io hio (ConsensusEngine.handles_delivered hhandles)
    have htree : e.tree = (n.engine.afterPoll io).tree := congrArg Prod.fst hcore
    have hdownloader : e.downloader = (n.engine.afterPoll io).downloader := congrArg Prod.snd hcore
    refine ConsensusEngine.onEngineMessage_frugal ?_ io.sched message
    rw [htree, hdownloader]
    exact hafter
  · rintro io data rfl hdata
    have hafter : Frugal n.engine.downloader ∅ (n.engine.afterPoll io).tree := ⟨h.keyed, h.useful⟩
    apply ConsensusEngine.onDownloadOutcome_keeps (P := fun U e => Frugal e.downloader U e.tree) _ io.sched data
    · refine ConsensusEngine.receiveOutcome_frugal hafter io.sched ?_ (huseful data hdata)
      intro k hk
      rcases EngineDownloader.poll_block (hnet io rfl) hk with hk | ⟨block, hblock, heq⟩
      · exact Or.inl hk
      · exact Or.inr ⟨block, Option.some.inj (hdata.symm.trans hblock), heq⟩
    · exact fun e hash U he => ConsensusEngine.insertUnlocked_frugal he io.sched

/-- **Witnesses are not leaked**, and there are no more of them than the buffer limit and the awaited blocks allow, in
every state of every run in which a witness arrives only for a block that can use it or takes it at once, a block that
cannot be recovered leaves no witness, and a finalized download stores no block whose witness stays. -/
theorem runs_frugal (database : RessDatabase) (genesis : Block) (events : List (NodeEvent E))
    (hnet : ∀ io, .poll io ∈ events → io.network.Honest)
    (hevents : Run.AllSteps step EventUseful (launch E database genesis) events) :
    Run.Always step (fun n => NoLeak n.engine.tree n.engine.downloader ∧
      n.engine.tree.blockBuffer.witnesses.keys.card ≤ 256 + n.engine.downloader.awaitedBlocks.length)
      (launch E database genesis) events := by
  have hstart : Frugal (launch E database genesis).engine.downloader ∅ (launch E database genesis).engine.tree := by
    refine ⟨fun k b hb => absurd hb ?_, fun k w hw => absurd hw ?_⟩
    · simp [launch, ConsensusEngine.launch, EngineTree.launch, EngineTree.new, BlockBuffer.new]
    · simp [launch, ConsensusEngine.launch, EngineTree.launch, EngineTree.new, BlockBuffer.new]
  have hhonest : ∀ event ∈ events, ∀ io, event = .poll io → io.network.Honest := by
    rintro event hmem io rfl
    exact hnet io hmem
  have hsteps := (Run.allSteps_of_mem hhonest (launch E database genesis)).and hevents
  refine Run.run_always (I := fun n => Frugal n.engine.downloader ∅ n.engine.tree ∧ Fed (fun _ => True) n)
    ?_ ?_ ⟨hstart, fed_launch _ database genesis⟩ hsteps
  · rintro n event ⟨h, hfed⟩ ⟨hhonest, huseful⟩
    exact ⟨frugal_step h hhonest huseful, hfed.step (eventBrings_true n event)⟩
  · rintro n ⟨h, hfed⟩
    exact ⟨h.noLeak, h.noLeak.card hfed.tree.capped⟩

theorem eventUseful_outcome {n : Node E} {io : ConsensusEngine.Io} (data : DownloadData)
    (hdata : n.engine.delivered io = some data)
    (huseful : OutcomeUseful (n.engine.afterPoll io).tree (n.engine.afterPoll io).downloader data) :
    EventUseful n (.poll io) := by
  intro data' h
  cases hdata.symm.trans h
  exact huseful

theorem eventUseful_none {n : Node E} {io : ConsensusEngine.Io} (hnone : n.engine.delivered io = none) :
    EventUseful n (.poll io) := by
  intro data h
  cases hnone.symm.trans h

/-- a head is downloaded, and validated with the witness that arrives for it; a child waits for its own -/
theorem runs_frugal_downloaded :
    Run.Always step (fun n => NoLeak n.engine.tree n.engine.downloader ∧
      n.engine.tree.blockBuffer.witnesses.keys.card ≤ 256 + n.engine.downloader.awaitedBlocks.length)
      (launch smallEnv ⟨∅, none, none⟩ twoBranches.genesis) downloadedRun := by
  have hnew : (smallNode [forkchoice (mainBlock 1).hash 0 1, idle false,
      blockReady 1]).engine.tree.provider.chainState.blocksByHash.get (mainBlock 1).hash = none := by decide +kernel
  have hbuffered : (smallNode [forkchoice (mainBlock 1).hash 0 1, idle false,
      blockReady 1]).engine.tree.blockBuffer.blocks.get (mainBlock 1).hash = some (mainBlock 1) := by decide +kernel
  apply runs_frugal
  · intro io hio
    simp only [downloadedRun, forkchoice, idle, blockReady, witnessReady, List.mem_cons, reduceCtorEq, false_or,
      NodeEvent.poll.injEq, List.not_mem_nil, or_false] at hio
    rcases hio with rfl | rfl | rfl | rfl
    · simp [Network.Honest, Network.silent]
    · intro hash block h
      simp only at h
      split_ifs at h with hhash
      cases h
      exact hhash.symm
    · simp [Network.Honest, Network.silent, witnessIo]
    · simp [Network.Honest, Network.silent]
  · refine ⟨trivial, eventUseful_none (by decide +kernel),
      eventUseful_outcome (.fullBlock (mainBlock 1)) (by decide +kernel) ?_,
      eventUseful_outcome (.witness (mainBlock 1).hash smallWitness) (by decide +kernel) ?_, trivial,
      eventUseful_none (by decide +kernel), trivial⟩
    · intro hrecover
      cases hrecover
    · intro missing _
      refine Or.inl ⟨?_, Or.inl ⟨mainBlock 1, hbuffered⟩⟩
      rintro ⟨b, hb⟩
      cases hnew.symm.trans hb

/-! ## A witness that nobody needs -/

/-- a head is downloaded and validated; its payload comes later, and its witness is requested again -/
def seenRun : List (NodeEvent smallEnv) :=
  [forkchoice (mainBlock 1).hash 0 1, idle false, blockReady 1, witnessReady 1,
    .arrive (.newPayload (mainBlock 1, none) 2), idle false, witnessReady 1]

/-- **A witness is kept for a validated block.** The payload is answered VALID, and since it came without a witness the
engine requests one; nothing takes it out of the buffer any more. -/
theorem seen_leaves_witness :
    (smallNode seenRun).terminated = none ∧ (smallNode seenRun).engine.responses.length = 2 ∧
      ¬ NoLeak (smallNode seenRun).engine.tree (smallNode seenRun).engine.downloader := by
  refine ⟨by decide +kernel, by decide +kernel, ?_⟩
  intro h
  have hwitness : (smallNode seenRun).engine.tree.blockBuffer.witnesses.get (mainBlock 1).hash =
      some smallWitness := by decide +kernel
  have hstored : (smallNode seenRun).engine.tree.provider.chainState.blocksByHash.get (mainBlock 1).hash =
      some (mainBlock 1) := by decide +kernel
  exact (h _ _ hwitness).1 ⟨_, hstored⟩

end Node

end Ress
