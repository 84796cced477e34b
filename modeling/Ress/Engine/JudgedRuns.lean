/-
The rule for what calls of `insert_block` end in, over whole runs of a node.

A `Judgement` says what is trusted of downloads (`code`, `honest`, and `sound` for finalized blocks) and what is claimed
of the calls (`judged`) and of the stored blocks (`sound`). Its one obligation is about one call in one state
(`Upholds`). Every run keeps it then (`runs_holdTo`): through payloads, parked payloads, the blocks that a download
unlocks, and what connects to them.
-/
import Ress.Engine.Calls
import Ress.Engine.CodeAvailability
import Ress.Engine.Coherence
import Ress.Tree.LatestValid
import Ress.Tree.WitnessVerdict

namespace Ress

structure Judgement (E : Env) where
  /-- the bytecode of a hash -/
  code : B256 → Option Bytecode
  /-- what a downloaded witness of this block is trusted to be -/
  honest : B256 → ExecutionWitness → Prop
  /-- what is claimed of stored blocks -/
  sound : Block → Prop
  /-- what is claimed of the calls of `insert_block` -/
  judged : Insertion → Prop

namespace EngineTree

variable {E : Env} {J : Judgement E} {W : World} {t t' : EngineTree E}

/-- what the judgement claims holds, and the node has the codes that its witnesses name -/
structure HoldsTo (J : Judgement E) (W : World) (t : EngineTree E) : Prop where
  coherent : Coherent W t
  available : Available t
  codes : ∀ hash bytecode, t.provider.database.bytecodes.get hash = some bytecode → J.code hash = some bytecode
  witnesses : ∀ hash w, t.blockBuffer.witnesses.get hash = some w → J.honest hash w
  stored : ∀ hash block, t.provider.chainState.blocksByHash.get hash = some block → J.sound block
  judged : ∀ i ∈ t.insertions, J.judged i

/-- one call of `insert_block`, with an honest witness whose codes are there -/
structure Upholds (J : Judgement E) (W : World) : Prop where
  genesis : J.sound W.genesis
  judge : ∀ {t : EngineTree E} (sched : StateRoot.Schedule) {block : Block} {mw : Option ExecutionWitness},
    HoldsTo J W t → t.provider.database.readError = none → W.Knows block.toSealedHeader →
      (∀ w, mw = some w → J.honest block.hash w ∧ w.bytecodeHashes E.codec ⊆ t.codes) →
        J.judged ⟨block, mw, t.codes, (t.insertBlock sched block mw).1⟩
  valid : ∀ i, J.judged i → i.result = .ok (.inserted .valid) → J.sound i.block

/-- the database answers the codes that it has -/
theorem getBytecode_some (hread : t.provider.database.readError = none) {codeHash : B256} {bytecode : Bytecode} :
    t.provider.getBytecode codeHash = .ok (some bytecode) ↔
      t.provider.database.bytecodes.get codeHash = some bytecode := by
  simp only [RessProvider.getBytecode, RessDatabase.getBytecode, hread, Except.ok.injEq]

/-- the stored parent of a block, with its header as it is checked -/
theorem HoldsTo.parent (h : HoldsTo J W t) {block : Block} {x : SealedHeader}
    (hx : t.provider.sealedHeader block.parentHash = some x) :
    ∃ parent, t.provider.chainState.blocksByHash.get parent.hash = some parent ∧ block.parentHash = parent.hash ∧
      x = parent.toSealedHeader ∧ { x with hash := block.parentHash } = parent.toSealedHeader := by
  obtain ⟨parent, hget, rfl⟩ := ChainState.sealedHeader_some.1 hx
  have hhash : parent.hash = block.parentHash := (h.coherent.wf.chain.state.known _ _ hget).1
  exact ⟨parent, hhash ▸ hget, hhash.symm, rfl, by rw [← hhash]⟩

/-- codes and block hashes are what is known, for a child of a stored block -/
theorem HoldsTo.knows (h : HoldsTo J W t) (hread : t.provider.database.readError = none) {parent block : Block}
    {w : ExecutionWitness} (hparent : t.provider.chainState.blocksByHash.get parent.hash = some parent)
    (hp : block.parentHash = parent.hash)
    (ha : E.consensus.validateHeaderAgainstParent block.toSealedHeader parent.toSealedHeader = .ok ())
    (hcodes : w.bytecodeHashes E.codec ⊆ t.codes) : t.Knows ⟨J.code, W.ancestorHash parent.hash⟩ block w where
  code codeHash bytecode hcode := h.codes _ _ ((getBytecode_some hread).1 hcode)
  blockHash number hash hlow hhigh hhash := by
    have hnext : block.number = parent.number + 1 := (E.consensus.against_parent _ _ ha).2
    have hnum : block.parentNumHash = parent.numHash := by
      simp only [SealedHeader.parentNumHash, SealedHeader.numHash, hnext, hp, Nat.add_sub_cancel]
    rw [hnum] at hhash
    rw [hnext] at hlow hhigh
    have hfloor : ∀ p : ℕ, p + 1 - 256 ≤ number → p - 255 ≤ number := by omega
    obtain ⟨hanc, hnumber⟩ := h.coherent.chain.toSound.blockHash_sound parent hparent number hash (hfloor _ hlow)
      (Nat.lt_succ_iff.1 hhigh) hhash
    simp only
    exact World.ancestorHash_eq hanc hnumber
  named codeHash hmem := by
    obtain ⟨bytecode, hget⟩ := FMap.mem_keys.1 (hcodes hmem)
    exact ⟨bytecode, (getBytecode_some hread).2 hget⟩

/-! ## Messages -/

theorem HoldsTo.shrinks (h : HoldsTo J W t) {buffer : BlockBuffer} (hs : BlockBuffer.Shrinks t.blockBuffer buffer) :
    HoldsTo J W (t.withBuffer buffer) where
  coherent := h.coherent.withBuffer (h.coherent.wf.buffer.shrinks hs)
  available := h.available.shrinks hs
  codes := h.codes
  witnesses hash w hw := h.witnesses hash w (hs.witnesses hash w hw)
  stored := h.stored
  judged := h.judged

/-- the buffer of a block that waits -/
theorem bufferWith_witnesses {t : EngineTree E} {block : Block} {mw : Option ExecutionWitness} {hash : B256}
    {w : ExecutionWitness} (h : (t.bufferWith block mw).witnesses.get hash = some w) :
    (mw = some w ∧ hash = block.hash) ∨ t.blockBuffer.witnesses.get hash = some w := by
  cases mw with
  | none => exact Or.inr ((BlockBuffer.insertBlock_removes t.blockBuffer block).witnesses hash w h)
  | some w' =>
    have hset := (BlockBuffer.insertBlock_removes (t.blockBuffer.insertWitness block.hash w' ∅) block).witnesses hash w h
    change (t.blockBuffer.witnesses.set block.hash w').get hash = some w at hset
    rw [FMap.get_set] at hset
    split_ifs at hset with hk
    · exact Or.inl ⟨hset, hk⟩
    · exact Or.inr hset

/-- **A call of `insert_block`** with an honest witness whose codes are there. -/
theorem HoldsTo.insertBlock (h : HoldsTo J W t) (hJ : Upholds J W) (hread : t.provider.database.readError = none)
    (sched : StateRoot.Schedule) {block : Block} {mw : Option ExecutionWitness} (hknown : W.Knows block.toSealedHeader)
    (hmw : ∀ w, mw = some w → J.honest block.hash w ∧ w.bytecodeHashes E.codec ⊆ t.codes) :
    HoldsTo J W (t.insertBlock sched block mw).2 ∧
      (t.insertBlock sched block mw).2.provider.database = t.provider.database := by
  have hjudged := hJ.judge sched h hread hknown hmw
  have hi := insertBlock_inserts t sched block mw
  have hcoherent := hi.books (Chain.coherent_kept W) hknown h.coherent
  have havailable := (hi.available h.available fun w hw => (hmw w hw).2).1
  generalize (t.insertBlock sched block mw).1 = r at hjudged hi
  generalize (t.insertBlock sched block mw).2 = t' at hi hcoherent havailable ⊢
  have hhistory : ∀ i ∈ t.insertions ++ [⟨block, mw, t.codes, r⟩], J.judged i := by
    intro i hmem
    rcases List.mem_append.1 hmem with hmem | hmem
    · exact h.judged i hmem
    · rw [List.mem_singleton.1 hmem]
      exact hjudged
  cases hi with
  | alreadySeen => exact ⟨⟨hcoherent, havailable, h.codes, h.witnesses, h.stored, hhistory⟩, rfl⟩
  | refused => exact ⟨⟨hcoherent, havailable, h.codes, h.witnesses, h.stored, hhistory⟩, rfl⟩
  | disconnected =>
    refine ⟨⟨hcoherent, havailable, h.codes, fun hash w hw => ?_, h.stored, hhistory⟩, rfl⟩
    rcases bufferWith_witnesses hw with ⟨rfl, rfl⟩ | hw
    · exact (hmw w rfl).1
    · exact h.witnesses hash w hw
  | noWitness =>
    refine ⟨⟨hcoherent, havailable, h.codes, fun hash w hw => ?_, h.stored, hhistory⟩, rfl⟩
    exact h.witnesses hash w ((BlockBuffer.insertBlock_removes t.blockBuffer block).witnesses hash w hw)
  | valid w _ _ _ event =>
    refine ⟨⟨hcoherent, havailable, h.codes, h.witnesses, fun hash b hb => ?_, hhistory⟩, rfl⟩
    change (t.provider.chainState.blocksByHash.set block.hash block).get hash = some b at hb
    rw [FMap.get_set] at hb
    split_ifs at hb with hk
    · rw [← Option.some.inj hb]
      exact hJ.valid _ hjudged rfl
    · exact h.stored hash b hb

theorem HoldsTo.makeCanonical (h : HoldsTo J W t) (target : B256) :
    HoldsTo J W (t.makeCanonical target) ∧ (t.makeCanonical target).provider.database = t.provider.database := by
  obtain ⟨hbuffer, hdatabase, -, hinsertions, hblocks⟩ := makeCanonical_frame t target
  have hcoherent := h.coherent.makeCanonical (Chain.coherent_kept W) target
  refine ⟨⟨hcoherent, (h.available.makeCanonical target).1, ?_, ?_, ?_, ?_⟩, hdatabase⟩
  · rw [hdatabase]
    exact h.codes
  · rw [hbuffer]
    exact h.witnesses
  · rw [hblocks]
    exact h.stored
  · rw [hinsertions]
    exact h.judged

/-- the calls that a message or an outcome leads to, over one database -/
theorem HoldsTo.calls (hJ : Upholds J W) {D : RessDatabase} (hread : D.readError = none) :
    Calls (E := E) (fun t => HoldsTo J W t ∧ t.provider.database = D) fun block mw => W.Knows block.toSealedHeader ∧
      ∀ w, mw = some w → J.honest block.hash w ∧ w.bytecodeHashes E.codec ⊆ D.bytecodes.keys where
  cache h := by
    obtain ⟨⟨hcoherent, havailable, hcodes, hwitnesses, hstored, hjudged⟩, hD⟩ := h
    exact ⟨⟨⟨⟨hcoherent.wf.chain, hcoherent.wf.buffer⟩, hcoherent.chain⟩, ⟨havailable.buffered, havailable.inserted⟩,
      hcodes, hwitnesses, hstored, hjudged⟩, hD⟩
  insertBlock {t} sched {block mw} hq h := by
    obtain ⟨h, rfl⟩ := h
    exact h.insertBlock hJ hread sched hq.1 hq.2
  makeCanonical target h := by
    obtain ⟨h, rfl⟩ := h
    exact h.makeCanonical target
  takes {t} ord parentHash h := by
    obtain ⟨h, rfl⟩ := h
    have htaken := BlockBuffer.removeBlockWithChildren_taken ord t.blockBuffer parentHash h.coherent.wf.buffer.keyed
    refine ⟨⟨h.shrinks htaken.toShrinks, rfl⟩, fun x hx => ?_⟩
    obtain ⟨hblock, hwitness, hmissing⟩ := htaken.taken x hx
    refine ⟨(h.coherent.wf.buffer.blocks _ _ hblock).2, fun w hw => ?_⟩
    rw [← Option.some.inj hw]
    exact ⟨h.witnesses _ _ hwitness, h.available.buffered.ready hwitness hmissing⟩

theorem Updates.database {sched : StateRoot.Schedule} {state : ForkchoiceState} {r : UpdateAnswer}
    (hu : Updates sched t state r t') : t'.provider.database = t.provider.database := by
  have hfinalized : ∀ (t : EngineTree E) hash, (t.onFinalized sched hash).provider.database = t.provider.database := by
    intro t hash
    simp only [onFinalized, RessProvider.onFinalized]
    split <;> split_ifs <;> rfl
  cases hu with
  | zeroHead => rfl
  | invalid _ _ _ hf => rw [hf.provider]
  | currentInconsistent _ hf => rw [hf.provider]
  | current _ hf => rw [hf.provider]
  | updateInconsistent _ hf => rw [← hf.provider]; rfl
  | updated _ hf => rw [hfinalized, ← hf.provider]; rfl
  | stored _ hf => rw [hf.provider]
  | syncing _ hf => rw [hf.provider]

theorem HoldsTo.updates (h : HoldsTo J W t) {sched : StateRoot.Schedule} {state : ForkchoiceState} {r : UpdateAnswer}
    (hu : Updates sched t state r t') : HoldsTo J W t' where
  coherent := h.coherent.updates (Chain.coherent_kept W) hu
  available := h.available.updates hu
  codes := by
    rw [hu.database]
    exact h.codes
  witnesses hash w hw := h.witnesses hash w (hu.removes.1.witnesses hash w hw)
  stored hash block hb := h.stored hash block (hu.blocks hb)
  judged := by
    rw [hu.insertions]
    exact h.judged

theorem HoldsTo.tracks (h : HoldsTo J W t) (ht : Tracks t t') : HoldsTo J W t' where
  coherent := h.coherent.tracks ht
  available := h.available.tracks ht
  codes := by
    rw [ht.provider]
    exact h.codes
  witnesses := by
    rw [ht.blockBuffer]
    exact h.witnesses
  stored := by
    rw [ht.provider]
    exact h.stored
  judged := by
    rw [ht.insertions]
    exact h.judged

end EngineTree

/-! ## Outcomes -/

namespace ConsensusEngine

open EngineTree (HoldsTo Upholds)

variable {E : Env} {J : Judgement E} {W : World} {e : ConsensusEngine E}

/-- what a download brings is what it is trusted to be -/
def OutcomeServed (J : Judgement E) : DownloadData → Prop
  | .witness blockHash witness => J.honest blockHash witness
  | .bytecode codeHash bytecode => J.code codeHash = some bytecode
  | .finalizedBlock block _ => J.sound block
  | .fullBlock _ => True

theorem onFinalizedBlock_frame (t : EngineTree E) (block : Block) (ancestors : List SealedHeader) :
    (t.onFinalizedBlock block ancestors).provider.database = t.provider.database := by
  have hfold : ∀ (l : List SealedHeader) (p : RessProvider),
      (l.foldl (fun p header => p.insertCanonicalHash header.number header.hash) p).database = p.database := by
    intro l
    induction l with
    | nil => exact fun p => rfl
    | cons x l ih => exact fun p => ih (p.insertCanonicalHash x.number x.hash)
  simp only [EngineTree.onFinalizedBlock, hfold]
  rfl

/-- an outcome before its blocks are inserted -/
theorem receiveOutcome_holdsTo (h : HoldsTo J W e.tree) (sched : StateRoot.Schedule) {data : DownloadData}
    (hfits : OutcomeFits W e.tree data) (hserved : OutcomeServed J data) :
    HoldsTo J W (e.receiveOutcome sched data).2.tree ∧
      (e.receiveOutcome sched data).2.tree.provider.database.readError = e.tree.provider.database.readError := by
  have hcoherent := receiveOutcome_books h.coherent (Chain.coherent_kept W) sched hfits
  have havailable := receiveOutcome_available h.available sched data
  have hreceived := receiveOutcome_received e sched data
  generalize e.receiveOutcome sched data = received at hcoherent havailable hreceived ⊢
  have hwitness : ∀ {blockHash w} m hash w', J.honest blockHash w →
      (e.tree.blockBuffer.insertWitness blockHash w m).witnesses.get hash = some w' → J.honest hash w' := by
    intro blockHash w m hash w' hhonest hget
    change (e.tree.blockBuffer.witnesses.set blockHash w).get hash = some w' at hget
    rw [FMap.get_set] at hget
    split_ifs at hget with hk
    · rw [hk, ← Option.some.inj hget]
      exact hhonest
    · exact h.witnesses hash w' hget
  cases hreceived with
  | @finalized block ancestors hrecover =>
    have hframe := onFinalizedBlock_frame e.tree block ancestors
    have hblocks : (e.tree.onFinalizedBlock block ancestors).provider.chainState.blocksByHash =
        e.tree.provider.chainState.blocksByHash.set block.hash block :=
      (congrArg (fun c : Chain => c.state.blocksByHash) (EngineTree.onFinalizedBlock_chain e.tree block ancestors)).trans
        (Chain.onFinalizedBlock_blocks e.tree.chain block ancestors)
    refine ⟨⟨hcoherent, havailable, ?_, h.witnesses, fun hash b hb => ?_, h.judged⟩, congrArg _ hframe⟩
    · rw [hframe]
      exact h.codes
    · change (e.tree.onFinalizedBlock block ancestors).provider.chainState.blocksByHash.get hash = some b at hb
      rw [hblocks, FMap.get_set] at hb
      split_ifs at hb with hk
      · rw [← Option.some.inj hb]
        exact hserved
      · exact h.stored hash b hb
  | unrecovered hrecover => exact ⟨h, rfl⟩
  | buffered hrecover =>
    refine ⟨⟨hcoherent, havailable, h.codes, fun hash w hw => ?_, h.stored, h.judged⟩, rfl⟩
    exact h.witnesses hash w ((BlockBuffer.insertBlock_removes _ _).witnesses hash w hw)
  | dropped hrecover => exact ⟨h, rfl⟩
  | lookupFailed hmissing => exact ⟨h, rfl⟩
  | complete hmissing =>
    exact ⟨⟨hcoherent, havailable, h.codes, fun hash w => hwitness ∅ hash w hserved, h.stored, h.judged⟩, rfl⟩
  | incomplete hmissing hne =>
    exact ⟨⟨hcoherent, havailable, h.codes, fun hash w => hwitness _ hash w hserved, h.stored, h.judged⟩, rfl⟩
  | @bytecode codeHash bytecode =>
    unfold EngineTree.onBytecode RessProvider.insertBytecode RessDatabase.insertBytecode at hcoherent havailable ⊢
    cases hwrite : e.tree.provider.database.writeError with
    | some error => exact ⟨h, rfl⟩
    | none =>
      simp only [hwrite] at hcoherent havailable ⊢
      refine ⟨⟨hcoherent, havailable, fun hash b hb => ?_, h.witnesses, h.stored, h.judged⟩, rfl⟩
      change (e.tree.provider.database.bytecodes.set codeHash bytecode).get hash = some b at hb
      rw [FMap.get_set] at hb
      split_ifs at hb with hk
      · rw [hk, ← Option.some.inj hb]
        exact hserved
      · exact h.codes hash b hb

/-- **An unlocked block.** -/
theorem insertUnlocked_holdsTo (hJ : Upholds J W) (h : HoldsTo J W e.tree)
    (hread : e.tree.provider.database.readError = none) (sched : StateRoot.Schedule) (hash : B256) :
    HoldsTo J W (e.insertUnlocked sched hash).tree ∧
      (e.insertUnlocked sched hash).tree.provider.database.readError = none := by
  have hcalls := HoldsTo.calls hJ hread
  have htaken := h.shrinks (BlockBuffer.removeBlock_removes e.tree.blockBuffer hash).toShrinks
  obtain ⟨hafter, hdatabase⟩ := insertUnlocked_byCalls hcalls e sched hash ⟨htaken, rfl⟩ (by
    intro b w hb hw hm
    obtain ⟨hhash, hknown⟩ := h.coherent.wf.buffer.blocks _ _ hb
    refine ⟨hknown, fun w' hw' => ?_⟩
    rw [← Option.some.inj hw', hhash]
    exact ⟨h.witnesses _ _ hw, h.available.buffered.ready hw hm⟩)
  rw [hdatabase]
  exact ⟨hafter, hread⟩

end ConsensusEngine

/-! ## Runs -/

namespace Node

open EngineTree (HoldsTo Upholds MessageKnown)
open ConsensusEngine (OutcomeServed)

variable {E : Env} {J : Judgement E} {W : World}

/-- the database can be read, and what downloads bring is what it is trusted to be -/
def EventServed (J : Judgement E) (n : Node E) : NodeEvent E → Prop
  | .arrive _ => True
  | .poll io => io.readError = none ∧ ∀ data, n.engine.delivered io = some data → OutcomeServed J data

/-- what the judgement claims holds, and the messages that wait bring known blocks -/
structure Held (J : Judgement E) (W : World) (n : Node E) : Prop where
  tree : HoldsTo J W n.engine.tree
  queue : ∀ message ∈ n.engine.fromBeaconEngine, MessageKnown W message

/-- a message that waits -/
theorem onEngineMessage_holdsTo (hJ : Upholds J W) {e : ConsensusEngine E} (h : HoldsTo J W e.tree)
    (hread : e.tree.provider.database.readError = none) (sched : StateRoot.Schedule) {message : BeaconEngineMessage E}
    (hknown : MessageKnown W message) :
    HoldsTo J W (e.onEngineMessage sched message).tree := by
  refine (ConsensusEngine.onEngineMessage_calls (HoldsTo.calls hJ hread) e sched message ⟨h, rfl⟩ ?_ ?_ ?_).1
  · exact fun payload => ⟨h.shrinks (BlockBuffer.removeWitness_removes _ _).1.toShrinks, rfl⟩
  · rintro payload tx block rfl hb
    refine ⟨hknown block hb, fun w hw => ⟨?_, (h.available.takeWitness _).2 w hw⟩⟩
    rw [E.validator.wellFormed_hash payload block hb]
    exact h.witnesses _ _ (BlockBuffer.removeWitness_some hw).1
  · intro state answer t t' hu ht
    refine ⟨(h.updates hu).tracks ht, ?_⟩
    rw [ht.provider]
    exact hu.database

/-- **One event** whose downloads bring what they are trusted to. -/
theorem Held.step (hJ : Upholds J W) {n : Node E} (h : Held J W n) {event : NodeEvent E} (hfits : EventFits W n event)
    (hserved : EventServed J n event) : Held J W (n.step event) := by
  have hafter : ∀ io, HoldsTo J W (n.engine.afterPoll io).tree := by
    intro io
    obtain ⟨hcoherent, havailable, hcodes, hwitnesses, hstored, hjudged⟩ := h.tree
    exact ⟨⟨⟨hcoherent.wf.chain, hcoherent.wf.buffer⟩, hcoherent.chain⟩, ⟨havailable.buffered, havailable.inserted⟩,
      hcodes, hwitnesses, hstored, hjudged⟩
  refine ⟨step_core (P := fun x => HoldsTo J W x.1) n event h.tree ?_ ?_ ?_, queue_known h.queue ?_⟩
  · exact fun io _ _ => hafter io
  · rintro io e message rfl hhandles hcore
    have htree : e.tree = (n.engine.afterPoll io).tree := congrArg Prod.fst hcore
    have hread : e.tree.provider.database.readError = none := by
      rw [htree]
      exact hserved.1
    exact onEngineMessage_holdsTo hJ (htree ▸ hafter io) hread io.sched
      (h.queue message (ConsensusEngine.handles_mem hhandles))
  · rintro io data rfl hdata
    refine (ConsensusEngine.onDownloadOutcome_tree
      (P := fun _ t => HoldsTo J W t ∧ t.provider.database.readError = none) _ io.sched data ?_ ?_).1
    · obtain ⟨hreceived, hread⟩ := ConsensusEngine.receiveOutcome_holdsTo (hafter io) io.sched (hfits data hdata)
        (hserved.2 data hdata)
      exact ⟨hreceived, hread.trans hserved.1⟩
    · exact fun e hash _ he => ConsensusEngine.insertUnlocked_holdsTo hJ he.1 he.2 io.sched hash
  · rintro message rfl
    exact hfits

/-- **The rule.** In every run whose downloads bring what they are trusted to, what the judgement claims holds in every
state. -/
theorem runs_holdTo (hJ : Upholds J W) (database : RessDatabase)
    (hcodes : ∀ hash bytecode, database.bytecodes.get hash = some bytecode → J.code hash = some bytecode)
    {events : List (NodeEvent E)}
    (hevents : Run.AllSteps step (fun n event => EventFits W n event ∧ EventServed J n event)
      (launch E database W.genesis) events) :
    Run.Always step (fun n => HoldsTo J W n.engine.tree) (launch E database W.genesis) events := by
  have hstart : Held J W (launch E database W.genesis) := by
    refine ⟨⟨EngineTree.books_launch W database (Chain.coherent_launch W), available_run database W.genesis [], hcodes,
      ?_, ?_, ?_⟩, ?_⟩
    · intro hash w hw
      cases (FMap.get_empty hash).symm.trans hw
    · intro hash block hblock
      change ((∅ : FMap B256 Block).set W.genesis.hash W.genesis).get hash = some block at hblock
      rw [FMap.get_set] at hblock
      split_ifs at hblock
      · rw [← Option.some.inj hblock]
        exact hJ.genesis
      · cases (FMap.get_empty hash).symm.trans hblock
    · exact fun i hi => absurd hi List.not_mem_nil
    · exact fun message hm => absurd hm List.not_mem_nil
  refine Run.run_always ?_ ?_ hstart hevents
  · exact fun n event h hevent => h.step hJ hevent.1 hevent.2
  · exact fun n h => h.tree

/-- a state that a node reaches when downloads bring what they are trusted to -/
def Reached (J : Judgement E) (W : World) (n : Node E) : Prop :=
  ∃ (database : RessDatabase) (events : List (NodeEvent E)),
    (∀ hash bytecode, database.bytecodes.get hash = some bytecode → J.code hash = some bytecode) ∧
      Run.AllSteps step (fun n event => EventFits W n event ∧ EventServed J n event) (launch E database W.genesis)
        events ∧
      n = Run.run step (launch E database W.genesis) events

theorem Reached.holdsTo (hJ : Upholds J W) {n : Node E} (h : Reached J W n) : HoldsTo J W n.engine.tree := by
  obtain ⟨database, events, hcodes, hevents, rfl⟩ := h
  exact runs_holdTo hJ database hcodes hevents events [] (List.append_nil events).symm

end Node

end Ress
