/-
Code availability before execution.

The codes that a witness names are in the database, or they are recorded as missing for its block (`Covered`). A witness
is released from the buffer only when nothing is missing for it, and the codes in the database stay there, so an
insertion with a witness finds all of them (`Available`). A second witness for a block, a bytecode that arrives for
several blocks, a failed write, an eviction and the re-buffering of a block with its witness all keep this.

`codes_available`: in every state of every run of a node.
-/
import Ress.Engine.EngineSteps

namespace Ress

namespace BlockBuffer

/-- the codes of every buffered witness are among `codes` or missing for its block -/
def Covered (C : StateCodec) (codes : Finset B256) (β : BlockBuffer) : Prop :=
  ∀ hash w, β.witnesses.get hash = some w → w.bytecodeHashes C ⊆ codes ∪ β.missing hash

variable {C : StateCodec} {codes : Finset B256} {β β' : BlockBuffer}

theorem Covered.shrinks (h : Covered C codes β) (hs : Shrinks β β') : Covered C codes β' := by
  intro hash w hw
  rw [hs.missing hash w hw]
  exact h hash w (hs.witnesses hash w hw)

/-- a witness with nothing missing has its codes -/
theorem Covered.ready (h : Covered C codes β) {hash : B256} {w : ExecutionWitness} (hw : β.witnesses.get hash = some w)
    (hm : β.missing hash = ∅) : w.bytecodeHashes C ⊆ codes := by
  have hsub := h hash w hw
  rwa [hm, Finset.union_empty] at hsub

theorem Covered.insertBlock (h : Covered C codes β) (b : Block) : Covered C codes (β.insertBlock b) :=
  have hadd : Covered C codes (β.addBlock b) := h
  hadd.shrinks (insertBlock_removes β b).toShrinks

theorem Covered.insertWitness (h : Covered C codes β) {hash : B256} {w : ExecutionWitness} {m : Finset B256}
    (hw : w.bytecodeHashes C ⊆ codes ∪ m) : Covered C codes (β.insertWitness hash w m) := by
  intro k w' hk
  rw [missing_insertWitness]
  change (β.witnesses.set hash w).get k = some w' at hk
  rw [FMap.get_set] at hk
  by_cases hkh : k = hash
  · rw [if_pos hkh] at hk
    rw [← Option.some.inj hk]
    by_cases hm : m ≠ ∅
    · rw [if_pos ⟨hm, hkh⟩]
      exact hw
    · rw [not_not.1 hm, Finset.union_empty] at hw
      exact hw.trans Finset.subset_union_left
  · rw [if_neg hkh] at hk
    rw [if_neg fun hc => hkh hc.2]
    exact h k w' hk

/-- a bytecode that has been stored is no longer missing -/
theorem Covered.onBytecodeReceived (h : Covered C codes β) (codeHash : B256) :
    Covered C (insert codeHash codes) (β.onBytecodeReceived codeHash).2 := by
  intro k w hw
  rw [missing_onBytecodeReceived]
  intro c hc
  rcases Finset.mem_union.1 (h k w hw hc) with hcodes | hm
  · exact Finset.mem_union_left _ (Finset.mem_insert_of_mem hcodes)
  · by_cases hcc : c = codeHash
    · exact Finset.mem_union_left _ (hcc ▸ Finset.mem_insert_self _ _)
    · exact Finset.mem_union_right _ (Finset.mem_erase.2 ⟨hcc, hm⟩)

end BlockBuffer

namespace EngineTree

variable {E : Env}

/-- the codes in the database -/
def codes (t : EngineTree E) : Finset B256 := t.provider.database.bytecodes.keys

/-- buffered witnesses are covered, and every insertion with a witness so far found its codes -/
structure Available (t : EngineTree E) : Prop where
  buffered : BlockBuffer.Covered E.codec t.codes t.blockBuffer
  inserted : ∀ i ∈ t.insertions, ∀ w, i.witness = some w → w.bytecodeHashes E.codec ⊆ i.codes

variable {t t' : EngineTree E}

theorem Available.shrinks (h : Available t) {buffer : BlockBuffer} (hs : BlockBuffer.Shrinks t.blockBuffer buffer) :
    Available (t.withBuffer buffer) := ⟨h.buffered.shrinks hs, h.inserted⟩

theorem Available.note (h : Available t) {b : Block} {mw : Option ExecutionWitness}
    (hmw : ∀ w, mw = some w → w.bytecodeHashes E.codec ⊆ t.codes)
    (r : Except InsertBlockErrorKind InsertPayloadOk) : Available (t.note b mw r) := by
  refine ⟨h.buffered, ?_⟩
  intro i hi w hw
  rcases List.mem_append.1 hi with hi | hi
  · exact h.inserted i hi w hw
  · rw [List.mem_singleton.1 hi] at hw ⊢
    exact hmw w hw

theorem Available.bufferWith (h : Available t) {b : Block} {mw : Option ExecutionWitness}
    (hmw : ∀ w, mw = some w → w.bytecodeHashes E.codec ⊆ t.codes) :
    Available (t.withBuffer (t.bufferWith b mw)) := by
  refine ⟨?_, h.inserted⟩
  cases mw with
  | none => exact h.buffered.insertBlock b
  | some w => exact (h.buffered.insertWitness ((hmw w rfl).trans Finset.subset_union_left)).insertBlock b

/-- inserting a block whose witness has its codes -/
theorem Inserts.available {b : Block} {mw : Option ExecutionWitness} {r : Except InsertBlockErrorKind InsertPayloadOk}
    (hi : Inserts t b mw r t') (h : Available t) (hmw : ∀ w, mw = some w → w.bytecodeHashes E.codec ⊆ t.codes) :
    Available t' ∧ t'.codes = t.codes := by
  cases hi with
  | alreadySeen => exact ⟨h.note hmw _, rfl⟩
  | refused => exact ⟨h.note hmw _, rfl⟩
  | disconnected head missing => exact ⟨(h.bufferWith hmw).note hmw _, rfl⟩
  | noWitness =>
    have hbuffer : Available (t.withBuffer (t.blockBuffer.insertBlock b)) := ⟨h.buffered.insertBlock b, h.inserted⟩
    exact ⟨hbuffer.note hmw _, rfl⟩
  | valid w _ _ _ event =>
    have hblock : Available
        (({ t with provider := t.provider.insertBlock b (some w.stateWitness) } : EngineTree E).emitEvent event) :=
      ⟨h.buffered, h.inserted⟩
    exact ⟨hblock.note hmw _, rfl⟩

theorem Available.makeCanonical (h : Available t) (target : B256) :
    Available (t.makeCanonical target) ∧ (t.makeCanonical target).codes = t.codes := by
  obtain ⟨hbuffer, hdatabase, -, hinsertions, -⟩ := makeCanonical_frame t target
  have hcodes : (t.makeCanonical target).codes = t.codes := by
    unfold codes
    rw [hdatabase]
  refine ⟨⟨?_, ?_⟩, hcodes⟩
  · rw [hbuffer, hcodes]
    exact h.buffered
  · rw [hinsertions]
    exact h.inserted

/-- over a fixed database, receiving a block whose witness has its codes keeps them available -/
theorem Available.keeps (D : Finset B256) : Keeps (E := E) (fun t => Available t ∧ t.codes = D)
    fun _ mw => ∀ w, mw = some w → w.bytecodeHashes E.codec ⊆ D where
  cache h := ⟨⟨h.1.buffered, h.1.inserted⟩, h.2⟩
  inserts hq hi h := by
    obtain ⟨havailable, hcodes⟩ := hi.available h.1 (by rw [h.2]; exact hq)
    exact ⟨havailable, hcodes.trans h.2⟩
  makeCanonical target h := by
    obtain ⟨havailable, hcodes⟩ := h.1.makeCanonical target
    exact ⟨havailable, hcodes.trans h.2⟩
  takes {t} ord p h := by
    have hreleased := BlockBuffer.removeBlockWithChildren_released ord t.blockBuffer p
    refine ⟨⟨h.1.shrinks hreleased.toShrinks, h.2⟩, ?_⟩
    intro x hx w hw
    obtain ⟨hash, hwit, hm⟩ := hreleased.ready x hx
    rw [← Option.some.inj hw, ← h.2]
    exact h.1.buffered.ready hwit hm

theorem Available.receives (h : Available t) {ord : Enumeration B256} {check : B256} {b : Block}
    {mw : Option ExecutionWitness} {r : Answer} (hr : Receives ord t check b mw r t')
    (hmw : ∀ w, mw = some w → w.bytecodeHashes E.codec ⊆ t.codes) : Available t' :=
  ((Available.keeps t.codes).receives hr hmw ⟨h, rfl⟩).1

theorem Available.forgets (h : Available t) (hf : Forgets t t') : Available t' := by
  rw [hf.same]
  exact ⟨h.buffered, h.inserted⟩

theorem Available.onFinalized (h : Available t) (sched : StateRoot.Schedule) (hash : B256) :
    Available (t.onFinalized sched hash) := by
  have hremoves := onFinalized_removes t sched hash
  have hframe : (t.onFinalized sched hash).codes = t.codes ∧ (t.onFinalized sched hash).insertions = t.insertions := by
    unfold EngineTree.onFinalized codes RessProvider.onFinalized
    simp only
    split
    · split_ifs <;> exact ⟨rfl, rfl⟩
    · split_ifs <;> exact ⟨rfl, rfl⟩
  refine ⟨?_, ?_⟩
  · rw [hframe.1]
    exact h.buffered.shrinks hremoves.toShrinks
  · rw [hframe.2]
    exact h.inserted

theorem Available.updates (h : Available t) {sched : StateRoot.Schedule} {state : ForkchoiceState} {r : UpdateAnswer}
    (hu : Updates sched t state r t') : Available t' := by
  have hupdate : ∀ {t₁ : EngineTree E} (update : NewCanonicalChain), Forgets t t₁ →
      Available (t₁.onCanonicalChainUpdate update) := by
    intro t₁ update hf
    exact ⟨(h.forgets hf).buffered, (h.forgets hf).inserted⟩
  cases hu with
  | zeroHead => exact h
  | invalid _ _ _ hf => exact h.forgets hf
  | currentInconsistent _ hf => exact h.forgets hf
  | current _ hf => exact h.forgets hf
  | updateInconsistent _ hf => exact hupdate _ hf
  | updated _ hf => exact (hupdate _ hf).onFinalized sched _
  | stored _ hf => exact h.forgets hf
  | syncing _ hf => exact h.forgets hf

/-! ## Messages and outcomes -/

/-- the witness taken for a payload has its codes -/
theorem Available.takeWitness (h : Available t) (hash : B256) :
    Available (t.withBuffer (t.blockBuffer.removeWitness hash).2) ∧
      ∀ w, (t.blockBuffer.removeWitness hash).1 = some w → w.bytecodeHashes E.codec ⊆ t.codes := by
  refine ⟨h.shrinks (BlockBuffer.removeWitness_removes _ _).1.toShrinks, ?_⟩
  intro w hw
  obtain ⟨hget, hm⟩ := BlockBuffer.removeWitness_some hw
  exact h.buffered.ready hget hm

theorem Available.tracks (h : Available t) (ht : Tracks t t') : Available t' := by
  refine ⟨?_, ?_⟩
  · unfold codes
    rw [ht.provider, ht.blockBuffer]
    exact h.buffered
  · rw [ht.insertions]
    exact h.inserted

theorem Available.messages (h : Available t) {sched : StateRoot.Schedule} {message : BeaconEngineMessage E}
    (hm : ConsensusEngine.Messages sched t message t') : Available t' := by
  apply hm.keeps h
  · exact fun t₁ target h₁ => (h₁.makeCanonical target).1
  · exact fun t₁ t₂ hf h₁ => h₁.forgets hf
  · exact fun t₁ t₂ ht h₁ => h₁.tracks ht
  · exact fun hash => (h.takeWitness hash).1
  · intro payload tx b check answer t₁ _ _ hr
    exact (h.takeWitness _).1.receives hr (h.takeWitness _).2
  · exact fun state answer t₁ hu => h.updates hu

theorem Available.onBytecode (h : Available t) (codeHash : B256) (bytecode : Bytecode) :
    Available (t.onBytecode codeHash bytecode).2 := by
  unfold EngineTree.onBytecode RessProvider.insertBytecode
  cases hi : t.provider.database.insertBytecode codeHash bytecode with
  | error error => exact h
  | ok database =>
    refine ⟨?_, h.inserted⟩
    change BlockBuffer.Covered E.codec database.bytecodes.keys (t.blockBuffer.onBytecodeReceived codeHash).2
    rw [RessDatabase.insertBytecode_keys hi]
    exact h.buffered.onBytecodeReceived codeHash

end EngineTree

namespace ConsensusEngine

open EngineTree (Available)

variable {E : Env} {e : ConsensusEngine E}

/-- an outcome before its blocks are inserted; a downloaded witness is stored with the codes that the database lacks -/
theorem receiveOutcome_available (h : Available e.tree) (sched : StateRoot.Schedule) (data : DownloadData) :
    Available (e.receiveOutcome sched data).2.tree := by
  have hreceived := receiveOutcome_received e sched data
  generalize e.receiveOutcome sched data = received at hreceived ⊢
  cases hreceived with
  | @finalized block ancestors hrecover =>
    have hdatabase : (e.tree.onFinalizedBlock block ancestors).codes = e.tree.codes := by
      unfold EngineTree.onFinalizedBlock EngineTree.codes
      simp only
      have hfold : ∀ p : RessProvider,
          (ancestors.foldl (fun p header => p.insertCanonicalHash header.number header.hash) p).database = p.database := by
        induction ancestors with
        | nil => intro p; rfl
        | cons x l ih => intro p; exact ih (p.insertCanonicalHash x.number x.hash)
      rw [hfold]
      rfl
    refine ⟨?_, h.inserted⟩
    rw [hdatabase]
    exact h.buffered
  | unrecovered hrecover => exact h
  | buffered hrecover => exact ⟨h.buffered.insertBlock _, h.inserted⟩
  | dropped hrecover => exact h
  | lookupFailed hmissing => exact h
  | complete hmissing => exact ⟨h.buffered.insertWitness (RessDatabase.missingCodeHashes_cover hmissing), h.inserted⟩
  | incomplete hmissing hne =>
    exact ⟨h.buffered.insertWitness (RessDatabase.missingCodeHashes_cover hmissing), h.inserted⟩
  | bytecode => exact h.onBytecode _ _

theorem insertUnlocked_available (h : Available e.tree) (sched : StateRoot.Schedule) (hash : B256) :
    Available (e.insertUnlocked sched hash).tree := by
  have htaken := h.shrinks (BlockBuffer.removeBlock_removes e.tree.blockBuffer hash).toShrinks
  rcases insertUnlocked_cases e sched hash with ⟨-, heq⟩ | ⟨b, w, answer, t, -, hw, hm, hr, hf⟩
  · rw [heq]
    exact htaken
  · have hreceived : Available t := by
      apply htaken.receives hr
      intro w' hw'
      rw [← Option.some.inj hw']
      exact h.buffered.ready hw hm
    exact hf.keeps (fun target => (hreceived.makeCanonical target).1) hreceived

end ConsensusEngine

namespace WitnessDatabase

variable {E : Env}

/-- a code in the database is answered, where the database can be read -/
theorem codeByHash_ok {db : WitnessDatabase E} {codeHash : B256} (hread : db.provider.database.readError = none)
    (hcode : codeHash ∈ db.provider.database.bytecodes.keys) : ∃ bytecode, db.codeByHash codeHash = .ok bytecode := by
  obtain ⟨bytecode, hget⟩ := FMap.mem_keys.1 hcode
  refine ⟨bytecode, ?_⟩
  unfold codeByHash RessProvider.getBytecode RessDatabase.getBytecode
  rw [hread]
  simp only [hget]

end WitnessDatabase

namespace Node

open EngineTree (Available)

variable {E : Env}

theorem available_step {n : Node E} (h : Available n.engine.tree) (event : NodeEvent E) :
    Available (n.step event).engine.tree := by
  refine step_tree n event h (fun t _ _ ht => ⟨ht.buffered, ht.inserted⟩) ?_ ?_
  · exact fun sched t t' message _ ht hm => ht.messages hm
  · intro io data _ _
    have hafter : Available (n.engine.afterPoll io).tree := ⟨h.buffered, h.inserted⟩
    apply ConsensusEngine.onDownloadOutcome_tree (P := fun _ t => Available t) _ io.sched data
    · exact ConsensusEngine.receiveOutcome_available hafter io.sched data
    · exact fun e hash _ he => ConsensusEngine.insertUnlocked_available he io.sched hash

theorem available_run (database : RessDatabase) (genesis : Block) (events : List (NodeEvent E)) :
    Available (Run.run step (launch E database genesis) events).engine.tree := by
  have hlaunch : Available (launch E database genesis).engine.tree := by
    refine ⟨?_, ?_⟩
    · intro hash w hw
      exact absurd hw (by simp [launch, ConsensusEngine.launch, EngineTree.launch, EngineTree.new, BlockBuffer.new])
    · intro i hi
      exact absurd hi (by simp [launch, ConsensusEngine.launch, EngineTree.launch, EngineTree.new])
  generalize launch E database genesis = n at hlaunch ⊢
  induction events generalizing n with
  | nil => exact hlaunch
  | cons event events ih => exact ih (n.step event) (available_step hlaunch event)

/-- **Code availability.** In every state of every run of a node, whatever arrives in whatever order: the codes of every
buffered witness are in the database or missing for its block; every insertion with a witness was made with the codes
of all its account leaves in the database; and a database with these codes answers them during the execution. -/
theorem codes_available (database : RessDatabase) (genesis : Block) (events : List (NodeEvent E)) :
    (∀ hash w, (Run.run step (launch E database genesis) events).engine.tree.blockBuffer.witnesses.get hash = some w →
        w.bytecodeHashes E.codec ⊆ (Run.run step (launch E database genesis) events).engine.tree.codes ∪
          (Run.run step (launch E database genesis) events).engine.tree.blockBuffer.missing hash) ∧
      ∀ i ∈ (Run.run step (launch E database genesis) events).engine.tree.insertions, ∀ w, i.witness = some w →
        ∀ encoded ∈ w.stateWitness, ∀ value, E.codec.decodeLeaf encoded = some value → ∀ account,
          E.codec.decodeTrieAccount value = some account → account.codeHash ≠ E.codec.keccakEmpty →
            account.codeHash ∈ i.codes ∧
              ∀ db : WitnessDatabase E, db.provider.database.bytecodes.keys = i.codes →
                db.provider.database.readError = none → ∃ bytecode, db.codeByHash account.codeHash = .ok bytecode := by
  have havailable := available_run (E := E) database genesis events
  refine ⟨havailable.buffered, ?_⟩
  intro i hi w hw encoded hencoded value hleaf account haccount hcode
  have hmem : account.codeHash ∈ i.codes := havailable.inserted i hi w hw
    (ExecutionWitness.mem_bytecodeHashes E.codec w encoded value account hencoded hleaf haccount hcode)
  exact ⟨hmem, fun db hkeys hread => WitnessDatabase.codeByHash_ok hread (hkeys ▸ hmem)⟩

end Node

end Ress
