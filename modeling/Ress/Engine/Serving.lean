/-
What a node serves to its peers.

A node keeps a witness with a block only if it has executed the block with it and found it valid (`Backed`). So header,
body and witness that a node serves for a hash are worth something to everyone: the block is valid with this witness,
for whoever has the codes and the ancestors of the block, whatever peers the node has been talking to itself. The codes
that the witness names are served too.

- `Backed.keeps`, `backed_run`: every event of a node keeps it.
- `served_valid`: in every state of every run, what is served is valid.

The premise `SameFinalized` is that a hash stands for one block: a finalized block that is downloaded is the one that
is stored, if one is.
-/
import Ress.Engine.Agreement
import Ress.Provider.Finalization
import Ress.Provider.RessProtocolProvider

namespace Ress

/-- the call found this block valid with these nodes -/
structure Insertion.Validates (i : Insertion) (block : Block) (nodes : List Bytes) : Prop where
  block : i.block = block
  valid : i.result = .ok (.inserted .valid)
  witness : ∃ w, i.witness = some w ∧ w.stateWitness = nodes

namespace ChainState

/-- a witness belongs to a stored block, which a call found valid with it -/
structure BackedBy (calls : List Insertion) (s : ChainState) : Prop where
  paired : ∀ hash nodes, s.witnesses.get hash = some nodes → s.Stored hash
  validated : ∀ hash block nodes, s.blocksByHash.get hash = some block → s.witnesses.get hash = some nodes →
    ∃ i ∈ calls, i.Validates block nodes

variable {s s' : ChainState} {calls calls' : List Insertion}

/-- canonical hashes do not matter, and earlier calls stay -/
theorem BackedBy.congr (h : s.BackedBy calls) (hblocks : s'.blocksByHash = s.blocksByHash)
    (hwitnesses : s'.witnesses = s.witnesses) (hcalls : calls ⊆ calls') : s'.BackedBy calls' := by
  refine ⟨fun hash nodes hw => ?_, fun hash block nodes hb hw => ?_⟩
  · rw [hwitnesses] at hw
    obtain ⟨block, hb⟩ := h.paired hash nodes hw
    exact ⟨block, by rw [hblocks]; exact hb⟩
  · rw [hblocks] at hb
    rw [hwitnesses] at hw
    obtain ⟨i, hi, hvalidates⟩ := h.validated hash block nodes hb hw
    exact ⟨i, hcalls hi, hvalidates⟩

/-- a block is stored with the witness with which it was found valid -/
theorem BackedBy.insertValid (h : s.BackedBy calls) {i : Insertion} {block : Block} {nodes : List Bytes}
    (hi : i.Validates block nodes) : (s.insertBlock block (some nodes)).BackedBy (calls ++ [i]) := by
  refine ⟨fun hash nodes' hw => ?_, fun hash block' nodes' hb hw => ?_⟩
  · change (s.witnesses.set block.hash nodes).get hash = some nodes' at hw
    rw [FMap.get_set] at hw
    rw [stored_insertBlock]
    split_ifs at hw with hk
    · exact Or.inl hk
    · exact Or.inr (h.paired hash nodes' hw)
  · change (s.blocksByHash.set block.hash block).get hash = some block' at hb
    change (s.witnesses.set block.hash nodes).get hash = some nodes' at hw
    rw [FMap.get_set] at hb hw
    split_ifs at hb hw with hk
    · cases hb
      cases hw
      exact ⟨i, List.mem_append_right _ List.mem_cons_self, hi⟩
    · obtain ⟨j, hj, hvalidates⟩ := h.validated hash block' nodes' hb hw
      exact ⟨j, List.mem_append_left _ hj, hvalidates⟩

/-- a finalized block comes without a witness; if it is stored already, it is stored again -/
theorem BackedBy.insertFinalized (h : s.BackedBy calls) {block : Block}
    (hsame : ∀ b, s.blocksByHash.get block.hash = some b → b = block) :
    (s.insertBlock block none).BackedBy calls := by
  refine ⟨fun hash nodes hw => stored_insertBlock.2 (Or.inr (h.paired hash nodes hw)), fun hash b nodes hb hw => ?_⟩
  change (s.blocksByHash.set block.hash block).get hash = some b at hb
  rw [FMap.get_set] at hb
  split_ifs at hb with hk
  · obtain ⟨b', hb'⟩ := h.paired hash nodes hw
    cases hb
    rw [hk] at hb'
    rw [← hsame b' hb']
    exact h.validated hash b' nodes (by rw [hk]; exact hb') hw
  · exact h.validated hash b nodes hb hw

/-- finalization takes a block away together with its witness -/
theorem BackedBy.removeBlocksOnFinalized (h : s.BackedBy calls) (finalizedHash : B256) :
    (s.removeBlocksOnFinalized finalizedHash).BackedBy calls := by
  unfold ChainState.removeBlocksOnFinalized
  cases hf : s.blocksByHash.get finalizedHash with
  | none => exact h
  | some finalized =>
    have hpop := popBlocks_get finalized.number s.blockHashesByNumber.keys.card s le_rfl
    have hpopped : (popBlocks finalized.number s.blockHashesByNumber.keys.card s).BackedBy calls := by
      refine ⟨fun hash nodes hw => ?_, fun hash block nodes hb hw => ?_⟩
      · rw [(hpop hash).2] at hw
        split_ifs at hw with hk
        obtain ⟨block, hb⟩ := h.paired hash nodes hw
        exact ⟨block, by rw [(hpop hash).1, if_neg hk]; exact hb⟩
      · rw [(hpop hash).1] at hb
        rw [(hpop hash).2] at hw
        split_ifs at hb hw with hk
        exact h.validated hash block nodes hb hw
    exact hpopped.congr (popCanonicalHashes_frame _ _ _).1 (popCanonicalHashes_witnesses _ _ _) (List.Subset.refl _)

end ChainState

namespace EngineTree

variable {E : Env} {t t' : EngineTree E}

/-- the witnesses of the node are those with which it found blocks valid, and no code of the database is lost -/
structure Backed (t : EngineTree E) : Prop where
  witnesses : t.provider.chainState.BackedBy t.insertions
  codes : ∀ i ∈ t.insertions, i.codes ⊆ t.codes

/-- neither canonical hashes nor the failures of the database matter -/
theorem Backed.congr (h : Backed t)
    (hblocks : t'.provider.chainState.blocksByHash = t.provider.chainState.blocksByHash)
    (hwitnesses : t'.provider.chainState.witnesses = t.provider.chainState.witnesses)
    (hinsertions : t'.insertions = t.insertions) (hcodes : t.codes ⊆ t'.codes) : Backed t' := by
  refine ⟨?_, ?_⟩
  · rw [hinsertions]
    exact h.witnesses.congr hblocks hwitnesses (List.Subset.refl _)
  · rw [hinsertions]
    exact fun i hi => (h.codes i hi).trans hcodes

/-- a call that stores nothing -/
theorem Backed.note (h : Backed t) (block : Block) (mw : Option ExecutionWitness)
    (r : Except InsertBlockErrorKind InsertPayloadOk) : Backed (t.note block mw r) := by
  refine ⟨h.witnesses.congr rfl rfl (List.subset_append_left _ _), fun i hi => ?_⟩
  rcases List.mem_append.1 hi with hi | hi
  · exact h.codes i hi
  · rw [List.mem_singleton.1 hi]
    exact subset_rfl

theorem Inserts.backed {block : Block} {mw : Option ExecutionWitness}
    {r : Except InsertBlockErrorKind InsertPayloadOk} (hi : Inserts t block mw r t') (h : Backed t) : Backed t' := by
  cases hi with
  | alreadySeen => exact h.note _ _ _
  | refused => exact h.note _ _ _
  | disconnected =>
    have hbuffer : Backed (t.withBuffer (t.bufferWith block mw)) := h.congr rfl rfl rfl subset_rfl
    exact hbuffer.note _ _ _
  | noWitness =>
    have hbuffer : Backed (t.withBuffer (t.blockBuffer.insertBlock block)) := h.congr rfl rfl rfl subset_rfl
    exact hbuffer.note _ _ _
  | valid w hmw => exact ⟨h.witnesses.insertValid ⟨rfl, rfl, w, hmw, rfl⟩, (h.note block mw _).codes⟩

theorem Backed.onCanonicalChainUpdate (h : Backed t) (update : NewCanonicalChain) :
    Backed (t.onCanonicalChainUpdate update) := by
  obtain ⟨hblocks, -, hwitnesses⟩ := ChainState.onChainUpdate_frame update.new update.old t.provider.chainState
  exact h.congr hblocks hwitnesses rfl subset_rfl

theorem Backed.makeCanonical (h : Backed t) (target : B256) : Backed (t.makeCanonical target) := by
  unfold EngineTree.makeCanonical
  split
  · exact h.onCanonicalChainUpdate _
  · exact h

theorem Backed.keeps : Keeps (E := E) Backed fun _ _ => True where
  cache h := h.congr rfl rfl rfl subset_rfl
  inserts _ hi h := hi.backed h
  makeCanonical target h := h.makeCanonical target
  takes _ _ h := ⟨h.congr rfl rfl rfl subset_rfl, fun _ _ => trivial⟩

theorem Backed.onFinalized (h : Backed t) (sched : StateRoot.Schedule) (hash : B256) :
    Backed (t.onFinalized sched hash) := by
  have hchain : (t.onFinalized sched hash).provider.chainState =
      if hash ≠ 0 then t.provider.chainState.removeBlocksOnFinalized hash else t.provider.chainState := by
    have hstate := congrArg Chain.state (onFinalized_chain t sched hash)
    rw [apply_ite Chain.state] at hstate
    exact hstate
  have hcodes : (t.onFinalized sched hash).codes = t.codes := by
    unfold EngineTree.onFinalized RessProvider.onFinalized EngineTree.codes
    simp only
    split <;> split_ifs <;> rfl
  refine ⟨?_, ?_⟩
  · rw [onFinalized_insertions, hchain]
    split_ifs
    · exact h.witnesses.removeBlocksOnFinalized hash
    · exact h.witnesses
  · rw [onFinalized_insertions, hcodes]
    exact h.codes

theorem Backed.updates (h : Backed t) {sched : StateRoot.Schedule} {state : ForkchoiceState} {r : UpdateAnswer}
    (hu : Updates sched t state r t') : Backed t' := by
  have hforgets : ∀ {t' : EngineTree E}, Forgets t t' → Backed t' := fun hf => Backed.keeps.forgets hf h
  cases hu with
  | zeroHead => exact h
  | invalid _ _ _ hf => exact hforgets hf
  | currentInconsistent _ hf => exact hforgets hf
  | current _ hf => exact hforgets hf
  | updateInconsistent _ hf => exact (hforgets hf).onCanonicalChainUpdate _
  | updated _ hf => exact ((hforgets hf).onCanonicalChainUpdate _).onFinalized sched _
  | stored _ hf => exact hforgets hf
  | syncing _ hf => exact hforgets hf

theorem Backed.messages (h : Backed t) {sched : StateRoot.Schedule} {message : BeaconEngineMessage E}
    (hm : ConsensusEngine.Messages sched t message t') : Backed t' := by
  have htake : ∀ hash, Backed (t.withBuffer (t.blockBuffer.removeWitness hash).2) :=
    fun hash => h.congr rfl rfl rfl subset_rfl
  apply hm.keeps h
  · exact fun t₁ target h₁ => h₁.makeCanonical target
  · exact fun t₁ t₂ hf h₁ => Backed.keeps.forgets hf h₁
  · intro t₁ t₂ ht h₁
    refine h₁.congr (by rw [ht.provider]) (by rw [ht.provider]) ht.insertions ?_
    unfold EngineTree.codes
    rw [ht.provider]
  · exact htake
  · exact fun payload tx b check answer t₁ _ _ hr => Backed.keeps.receives hr trivial (htake _)
  · exact fun state answer t₁ hu => h.updates hu

end EngineTree

namespace ConsensusEngine

open EngineTree (Backed)

variable {E : Env} {e : ConsensusEngine E}

/-- a finalized block that is stored already is the one that is downloaded -/
def SameFinalized (t : EngineTree E) : DownloadData → Prop
  | .finalizedBlock block _ => ∀ b, t.provider.chainState.blocksByHash.get block.hash = some b → b = block
  | _ => True

/-- the receipt of an outcome -/
theorem receiveOutcome_backed (h : Backed e.tree) (sched : StateRoot.Schedule) {data : DownloadData}
    (hsame : SameFinalized e.tree data) : Backed (e.receiveOutcome sched data).2.tree := by
  have hreceived := receiveOutcome_received e sched data
  generalize e.receiveOutcome sched data = received at hreceived ⊢
  cases hreceived with
  | @finalized block ancestors hrecover =>
    have hcanonical : (e.tree.provider.chainState.insertCanonicalHash block.number block.hash).BackedBy
        e.tree.insertions := h.witnesses.congr rfl rfl (List.Subset.refl _)
    have hstate := congrArg Chain.state (EngineTree.onFinalizedBlock_chain e.tree block ancestors)
    obtain ⟨hblocks, -, hwitnesses⟩ := ChainState.insertCanonicalHashes_frame ancestors
      ((e.tree.provider.chainState.insertCanonicalHash block.number block.hash).insertBlock block none)
    refine ⟨(hcanonical.insertFinalized hsame).congr ?_ ?_ (List.Subset.refl _), ?_⟩
    · exact (congrArg ChainState.blocksByHash hstate).trans hblocks
    · exact (congrArg ChainState.witnesses hstate).trans hwitnesses
    · unfold EngineTree.codes
      rw [onFinalizedBlock_frame]
      exact h.codes
  | unrecovered hrecover => exact h
  | buffered hrecover => exact h.congr rfl rfl rfl subset_rfl
  | dropped hrecover => exact h
  | lookupFailed hmissing => exact h
  | complete hmissing => exact h.congr rfl rfl rfl subset_rfl
  | incomplete hmissing hne => exact h.congr rfl rfl rfl subset_rfl
  | @bytecode codeHash bytecode =>
    unfold EngineTree.onBytecode RessProvider.insertBytecode
    cases hi : e.tree.provider.database.insertBytecode codeHash bytecode with
    | error error => exact h
    | ok database =>
      refine h.congr rfl rfl rfl ?_
      change e.tree.codes ⊆ database.bytecodes.keys
      rw [RessDatabase.insertBytecode_keys hi]
      exact Finset.subset_insert _ _

theorem insertUnlocked_backed (h : Backed e.tree) (sched : StateRoot.Schedule) (hash : B256) :
    Backed (e.insertUnlocked sched hash).tree := by
  have htaken : Backed (e.tree.withBuffer (e.tree.blockBuffer.removeBlock hash).2) := h.congr rfl rfl rfl subset_rfl
  rcases insertUnlocked_cases e sched hash with ⟨-, heq⟩ | ⟨b, w, answer, t, -, -, -, hr, hf⟩
  · rw [heq]
    exact htaken
  · have hreceived : Backed t := Backed.keeps.receives hr trivial htaken
    exact hf.keeps (fun target => hreceived.makeCanonical target) hreceived

end ConsensusEngine

namespace Node

open EngineTree (Backed)
open ConsensusEngine (SameFinalized)

variable {E : Env} {W : World}

/-- a finalized block that is stored already is the one that is downloaded -/
def EventSame (n : Node E) : NodeEvent E → Prop
  | .arrive _ => True
  | .poll io => ∀ data, n.engine.delivered io = some data → SameFinalized n.engine.tree data

/-- **One event.** -/
theorem backed_step {n : Node E} (h : Backed n.engine.tree) {event : NodeEvent E} (hsame : EventSame n event) :
    Backed (n.step event).engine.tree := by
  refine step_tree n event h (fun t _ _ ht => ht.congr rfl rfl rfl subset_rfl) ?_ ?_
  · exact fun sched t t' message _ ht hm => ht.messages hm
  · rintro io data rfl hdata
    have hafter : Backed (n.engine.afterPoll io).tree := h.congr rfl rfl rfl subset_rfl
    apply ConsensusEngine.onDownloadOutcome_tree (P := fun _ t => Backed t) _ io.sched data
    · exact ConsensusEngine.receiveOutcome_backed hafter io.sched (hsame data hdata)
    · exact fun e hash _ he => ConsensusEngine.insertUnlocked_backed he io.sched hash

theorem backed_launch (database : RessDatabase) (genesis : Block) :
    Backed (launch E database genesis).engine.tree := by
  refine ⟨⟨fun hash nodes hw => ?_, fun hash block nodes _ hw => ?_⟩, fun i hi => absurd hi List.not_mem_nil⟩
  · cases (FMap.get_empty hash).symm.trans hw
  · cases (FMap.get_empty hash).symm.trans hw

/-- a state that a node reaches, where a finalized block that was stored already was the one downloaded -/
def ReachedSame (J : Judgement E) (W : World) (n : Node E) : Prop :=
  ∃ (database : RessDatabase) (events : List (NodeEvent E)),
    (∀ hash bytecode, database.bytecodes.get hash = some bytecode → J.code hash = some bytecode) ∧
      Run.AllSteps step (fun n event => (EventFits W n event ∧ EventServed J n event) ∧ EventSame n event)
        (launch E database W.genesis) events ∧
      n = Run.run step (launch E database W.genesis) events

variable {J : Judgement E} {n : Node E}

theorem ReachedSame.backed (h : n.ReachedSame J W) : Backed n.engine.tree := by
  obtain ⟨database, events, -, hevents, rfl⟩ := h
  exact Run.run_invariant (I := fun n => Backed n.engine.tree) (fun _ _ hn hevent => backed_step hn hevent.2)
    (backed_launch database W.genesis) hevents

theorem ReachedSame.reached (h : n.ReachedSame J W) : n.Reached J W := by
  obtain ⟨database, events, hcodes, hevents, rfl⟩ := h
  exact ⟨database, events, hcodes, Run.AllSteps.mono (fun _ _ hevent => hevent.1) hevents, rfl⟩

end Node

/-! ## What is served -/

variable {E : Env} {W : World} {code : B256 → Option Bytecode} {laws : EvmLaws E} {block : Block} {nodes : List Bytes}

/-- for whoever has the codes and the ancestors of the block, it is valid with these nodes -/
def ValidWith (E : Env) (W : World) (code : B256 → Option Bytecode) (block : Block) (nodes : List Bytes) : Prop :=
  ∃ parent, W.Knows parent ∧ parent.hash = block.parentHash ∧ ∀ (w : ExecutionWitness) sched, w.stateWitness = nodes →
    (W.knowledge code parent.hash).judge E sched block parent w = .ok ()

/-- a verdict that is valid is so for everyone -/
theorem Settles.validWith {w : ExecutionWitness} (h : Settles laws W code block (some w) (.ok ())) :
    ValidWith E W code block w.stateWitness := by
  cases h with
  | @judged parent _ hknown hp hjudge =>
    refine ⟨parent, hknown, hp, fun w' sched hnodes => ?_⟩
    rw [Knowledge.judge_congr hnodes]
    rcases hjudge w rfl sched with hsame | ⟨-, error, herror, -⟩
    · exact hsame.symm
    · cases herror

namespace EngineTree

variable {t : EngineTree E} {hash : B256} {header : Header} {body : BlockBody}

/-- header, body and witness that are served for a hash -/
structure Serves (t : EngineTree E) (block : Block) (nodes : List Bytes) : Prop where
  header : t.provider.header block.hash = .ok (some block.toHeader)
  body : t.provider.blockBody block.hash = .ok (some block.body)
  witness : t.provider.witness block.hash = .ok nodes
  nonempty : nodes ≠ []

/-- what is served is stored -/
theorem Serves.stored (h : t.Serves block nodes) (hknown : t.provider.chainState.Known W) :
    t.provider.chainState.blocksByHash.get block.hash = some block ∧
      t.provider.chainState.witnesses.get block.hash = some nodes := by
  constructor
  · obtain ⟨stored, hget, hheader, hbody⟩ :=
      ChainState.served_block (Except.ok.inj h.header) (Except.ok.inj h.body)
    have hsame : stored = block := by
      obtain ⟨⟨header, hash⟩, body⟩ := stored
      obtain ⟨⟨header', hash'⟩, body'⟩ := block
      obtain rfl : hash = hash' := (hknown _ _ hget).1
      obtain rfl : header = header' := hheader
      obtain rfl : body = body' := hbody
      rfl
    rw [← hsame] at hget ⊢
    exact hget
  · have hwitness := Except.ok.inj h.witness
    change (t.provider.chainState.witnesses.get block.hash).getD [] = nodes at hwitness
    cases hget : t.provider.chainState.witnesses.get block.hash with
    | none =>
      rw [hget] at hwitness
      exact absurd hwitness.symm h.nonempty
    | some stored =>
      rw [hget] at hwitness
      exact congrArg some hwitness

/-- a block that is stored with a witness is served -/
theorem Serves.of_stored (hblock : t.provider.chainState.blocksByHash.get block.hash = some block)
    (hwitness : t.provider.chainState.witnesses.get block.hash = some nodes) (hnonempty : nodes ≠ []) :
    t.Serves block nodes := by
  refine ⟨?_, ?_, ?_, hnonempty⟩
  · simp only [RessProvider.header, ChainState.header, hblock, Option.map_some]
  · simp only [RessProvider.blockBody, ChainState.blockBody, hblock, Option.map_some]
  · simp only [RessProvider.witness, ChainState.witness, hwitness, Option.getD_some]

end EngineTree

namespace Node

open EngineTree (Backed HoldsTo)

variable {n n' : Node E}

/-- a call that found the block valid, with its codes in the database -/
theorem validated (hn : n.ReachedSame (settlement laws W code) W)
    (hholds : HoldsTo (settlement laws W code) W n.engine.tree) (hserves : n.engine.tree.Serves block nodes) :
    ∃ w, w.stateWitness = nodes ∧ Settles laws W code block (some w) (.ok ()) ∧
      w.bytecodeHashes E.codec ⊆ n.engine.tree.codes := by
  obtain ⟨hblock, hwitness⟩ := hserves.stored hholds.coherent.wf.chain.state.known
  have hbacked := hn.backed
  obtain ⟨i, hi, hvalidates⟩ := hbacked.witnesses.validated _ _ _ hblock hwitness
  obtain ⟨w, hw, hnodes⟩ := hvalidates.witness
  refine ⟨w, hnodes, ?_, (hholds.available.inserted i hi w hw).trans (hbacked.codes i hi)⟩
  have hverdict : i.verdict = some (.ok ()) := by simp only [Insertion.verdict, hvalidates.valid]
  have hsettles := hholds.judged i hi _ hverdict
  rw [hw, hvalidates.block] at hsettles
  exact hsettles

/-- a code of the database is served -/
theorem bytecode_served (hholds : HoldsTo (settlement laws W code) W n.engine.tree) {codeHash : B256}
    (hmem : codeHash ∈ n.engine.tree.codes) : ∃ bytecode, code codeHash = some bytecode ∧
      (n.engine.tree.provider.database.readError = none →
        n.engine.tree.provider.bytecode codeHash = .ok (some bytecode.originalBytes)) := by
  obtain ⟨bytecode, hget⟩ := FMap.mem_keys.1 hmem
  refine ⟨bytecode, hholds.codes _ _ hget, fun hread => ?_⟩
  simp only [RessProvider.bytecode, RessDatabase.getBytecode, hread, hget]
  rfl

/-- **What a node serves is valid.** In any state of any run, whatever witnesses the node was sent: a block that it
serves with a nonempty witness is valid with this witness, and the codes that the witness names are served too. No
other node that comes to a verdict on the block with the same nodes refuses it, unless for want of a block hash. -/
theorem served_valid (laws : EvmLaws E) (hleaf : LeafLaw E) (hmap : StateRoot.StorageTrieMap E)
    (hn : n.ReachedSame (settlement laws W code) W) (hserves : n.engine.tree.Serves block nodes) :
    ValidWith E W code block nodes ∧
      (∀ w : ExecutionWitness, w.stateWitness = nodes → ∀ codeHash ∈ w.bytecodeHashes E.codec,
        ∃ bytecode, code codeHash = some bytecode ∧ (n.engine.tree.provider.database.readError = none →
          n.engine.tree.provider.bytecode codeHash = .ok (some bytecode.originalBytes))) ∧
      ∀ n' : Node E, n'.Reached (settlement laws W code) W → ∀ j ∈ n'.engine.tree.insertions, j.block = block →
        ∀ w, j.witness = some w → w.stateWitness = nodes → ∀ v, j.verdict = some v →
          v = .ok () ∨ AsksBlockHash laws W code block w v (.ok ()) := by
  have hupholds := EngineTree.settlement_upholds laws hleaf hmap W code
  have hholds := hn.reached.holdsTo hupholds
  obtain ⟨w, rfl, hsettles, hcodes⟩ := validated hn hholds hserves
  refine ⟨hsettles.validWith, fun w' hnodes codeHash hmem => ?_, ?_⟩
  · have hsame : w'.bytecodeHashes E.codec = w.bytecodeHashes E.codec := by
      simp only [ExecutionWitness.bytecodeHashes, hnodes]
    exact bytecode_served hholds (hcodes (hsame ▸ hmem))
  · intro n' hn' j hj hblock w' hw' hnodes v hv
    have hsettles' := (hn'.holdsTo hupholds).judged j hj v hv
    rw [hw', hblock] at hsettles'
    rcases hsettles'.agrees hsettles hnodes with hsame | hasks
    · exact Or.inl (hsame.symm.ok rfl)
    · exact Or.inr hasks

open FullNode (tallyEnv tallyBlock tallyWorld tallyNode tally)

theorem tallySized_same :
    Run.AllSteps step EventSame (launch tallyEnv ⟨∅, none, none⟩ tallyWorld.genesis) (tallySized 65) := by
  refine ⟨trivial, ?_, ?_, trivial⟩
  · intro data hdata
    cases tallyRun_delivered.1.symm.trans hdata
  · intro data hdata
    cases (tallySized_delivered 65 (by decide)).symm.trans hdata
    trivial

theorem tallyEnd_reachedSame :
    (tallyEnd 65).ReachedSame (settlement tally.evm tallyWorld fun _ => none) tallyWorld :=
  ⟨⟨∅, none, none⟩, tallySized 65, tallyCodes _, (tallySized_fits 65 (by decide)).and tallySized_same, rfl⟩

theorem tallyEnd_serves : (tallyEnd 65).engine.tree.Serves (tallyBlock 1) [tallyNode 1] :=
  ⟨by decide +kernel, by decide +kernel, by decide +kernel, List.cons_ne_nil _ _⟩

/-- the node serves the block that it was given with the witness that it fetched -/
theorem served_valid_tally : ValidWith tallyEnv tallyWorld (fun _ => none) (tallyBlock 1) [tallyNode 1] :=
  (served_valid tally.evm tallyEnv_leafLaw tallyEnv_storageTrieMap tallyEnd_reachedSame tallyEnd_serves).1

end Node

end Ress
