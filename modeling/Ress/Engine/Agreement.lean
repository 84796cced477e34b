/-
Agreement between nodes.

Nodes see messages and downloads in different orders, and peers may send any witness. What two nodes have in common is
the world of headers and the bytecodes behind the hashes.

- `Settles`: a call of `insert_block` that comes to a verdict ends with the one of block and witness
  (`Knowledge.judge`), or its execution asks for a block hash and ends without it. Every call of every run does.
- `verdicts_agree`: so two nodes that come to a verdict on one block with the same nodes come to the same one, unless
  one of them lacked a block hash.
- `hashes_agree`: and two nodes answer a block hash alike, and have the same canonical hashes up to a common ancestor of
  their heads.
-/
import Ress.Engine.FullyValidated

namespace Ress

open Writes (Agrees)
open StateRoot (StorageTrieMap)

/-- what is known of the ancestors of a block with this parent -/
noncomputable def World.knowledge (W : World) (code : B256 → Option Bytecode) (parentHash : B256) : Knowledge :=
  ⟨code, W.ancestorHash parentHash⟩

/-- how a call ends that comes to a verdict -/
inductive Settles {E : Env} (laws : EvmLaws E) (W : World) (code : B256 → Option Bytecode) (block : Block)
    (mw : Option ExecutionWitness) : Except InsertBlockErrorKind Unit → Prop
  | malformed {error : ConsensusError} (h : EngineTree.validateBlock E block = .error error) :
      Settles laws W code block mw (.error (.consensus error))
  /-- the verdict of block and witness -/
  | judged {parent : SealedHeader} {verdict : Except InsertBlockErrorKind Unit} (hknown : W.Knows parent)
      (hp : parent.hash = block.parentHash) (h : ∀ w, mw = some w → ∀ sched,
        Agrees EngineTree.ProviderError ((W.knowledge code parent.hash).judge E sched block parent w) verdict) :
      Settles laws W code block mw verdict
  /-- the execution asks for a block hash, and ends without it -/
  | blockHash {parent : SealedHeader} {error : BlockExecutionError} (hknown : W.Knows parent)
      (hp : parent.hash = block.parentHash)
      (h : ∀ w, mw = some w → ∃ number, (W.knowledge code parent.hash).Asks laws block parent w number) :
      Settles laws W code block mw (.error (.execution error))

/-- valid, or refused for an error; nothing for a block that is there already, that waits, or that has no witness -/
def Insertion.verdict (i : Insertion) : Option (Except InsertBlockErrorKind Unit) :=
  match i.result with
  | .ok (.inserted .valid) => some (.ok ())
  | .ok _ => none
  | .error kind => some (.error kind)

/-- witnesses and finalized blocks are not trusted at all -/
def settlement {E : Env} (laws : EvmLaws E) (W : World) (code : B256 → Option Bytecode) : Judgement E where
  code := code
  honest _ _ := True
  sound _ := True
  judged i := ∀ verdict, i.verdict = some verdict → Settles laws W code i.block i.witness verdict

namespace Knowledge

variable {E : Env} {K : Knowledge} {sched : StateRoot.Schedule} {block : Block} {parent : SealedHeader}
  {w : ExecutionWitness}

theorem judge_validateBlock {error : ConsensusError} (h : EngineTree.validateBlock E block = .error error) :
    K.judge E sched block parent w = .error (.consensus error) := by
  simp only [judge, h]
  rfl

theorem judge_parent {error : ConsensusError} (hv : EngineTree.validateBlock E block = .ok ())
    (h : E.consensus.validateHeaderAgainstParent block.toSealedHeader parent = .error error) :
    K.judge E sched block parent w = .error (.consensus error) := by
  simp only [judge, hv, h]
  rfl

theorem judge_execute (hv : EngineTree.validateBlock E block = .ok ())
    (ha : E.consensus.validateHeaderAgainstParent block.toSealedHeader parent = .ok ()) :
    K.judge E sched block parent w = EngineTree.executeBlockOn E K.database sched block parent w := by
  simp only [judge, hv, ha]
  rfl

end Knowledge

namespace EngineTree

variable {E : Env} {W : World} {code : B256 → Option Bytecode} {laws : EvmLaws E} {t : EngineTree E} {block : Block}

/-- **One insertion** ends with the verdict of block and witness, or for want of a block hash. -/
theorem insertBlock_settled (h : HoldsTo (settlement laws W code) W t) (hleaf : LeafLaw E) (hmap : StorageTrieMap E)
    (hread : t.provider.database.readError = none) (sched : StateRoot.Schedule) {mw : Option ExecutionWitness}
    (hmw : ∀ w, mw = some w → w.bytecodeHashes E.codec ⊆ t.codes) :
    (settlement laws W code).judged ⟨block, mw, t.codes, (t.insertBlock sched block mw).1⟩ := by
  -- a child of a stored block whose header fits
  have hexecuted : ∀ {parent : Block} {w : ExecutionWitness},
      t.provider.chainState.blocksByHash.get parent.hash = some parent → block.parentHash = parent.hash →
      validateBlock E block = .ok () →
      E.consensus.validateHeaderAgainstParent block.toSealedHeader parent.toSealedHeader = .ok () → mw = some w →
        Settles laws W code block mw (t.executeBlock sched block parent.toSealedHeader w) := by
    intro parent w hget hp hv ha hw
    have hknown : W.Knows parent.toSealedHeader := (h.coherent.wf.chain.state.known _ _ hget).2
    rcases executeBlock_known_or (h.knows hread hget hp ha (hmw w hw)) laws hleaf sched parent.toSealedHeader with
      hsame | ⟨⟨number, hasks, -⟩, error, herror⟩
    · refine .judged hknown hp.symm fun w' hw' sched' => ?_
      cases hw.symm.trans hw'
      rw [hsame, ← Knowledge.judge_execute hv ha]
      exact Knowledge.judge_agrees hmap sched' sched
    · rw [herror]
      refine .blockHash hknown hp.symm fun w' hw' => ?_
      cases hw.symm.trans hw'
      exact ⟨number, hasks⟩
  have hchecks := insertBlock_checks t sched block mw
  intro verdict hverdict
  simp only [Insertion.verdict] at hverdict
  cases hr : (t.insertBlock sched block mw).1 with
  | ok result =>
    rw [hr] at hchecks hverdict
    rcases result with _ | _ | _ | _
    · cases hverdict
    · cases hverdict
      obtain ⟨w, hw, -, hv, x, hx, ha, hexecute⟩ := hchecks
      obtain ⟨parent, hget, hp, rfl, hsame⟩ := h.parent hx
      rw [hsame] at ha
      rw [← hexecute]
      exact hexecuted hget hp hv ha hw
    · cases hverdict
    · cases hverdict
  | error kind =>
    rw [hr] at hchecks hverdict
    cases hverdict
    obtain ⟨-, ⟨error, hv, rfl⟩ | ⟨hv, x, hx, hfails⟩⟩ := hchecks
    · exact .malformed hv
    · obtain ⟨parent, hget, hp, rfl, hsame⟩ := h.parent hx
      rw [hsame] at hfails
      rcases hfails with ⟨error, ha, rfl⟩ | ⟨ha, w, hw, hexecute⟩
      · refine .judged (h.coherent.wf.chain.state.known _ _ hget).2 hp.symm fun w _ sched' => ?_
        rw [Knowledge.judge_parent hv ha]
        exact Agrees.refl _ _
      · rw [← hexecute]
        exact hexecuted hget hp hv ha hw

theorem settlement_upholds (laws : EvmLaws E) (hleaf : LeafLaw E) (hmap : StorageTrieMap E) (W : World)
    (code : B256 → Option Bytecode) : Upholds (settlement laws W code) W where
  genesis := trivial
  judge sched _ _ h hread _ hmw := insertBlock_settled h hleaf hmap hread sched fun w hw => (hmw w hw).2
  valid _ _ _ := trivial

end EngineTree

/-! ## Two nodes -/

variable {E : Env} {W : World} {code : B256 → Option Bytecode} {laws : EvmLaws E} {block : Block}
  {w w' : ExecutionWitness} {v v' : Except InsertBlockErrorKind Unit}

/-- what is left where two verdicts may differ: the execution asks for a block hash, and one call ended without it -/
def AsksBlockHash (laws : EvmLaws E) (W : World) (code : B256 → Option Bytecode) (block : Block) (w : ExecutionWitness)
    (v v' : Except InsertBlockErrorKind Unit) : Prop :=
  (∃ parent number, W.Knows parent ∧ parent.hash = block.parentHash ∧
      (W.knowledge code parent.hash).Asks laws block parent w number) ∧
    ((∃ error, v = .error (.execution error)) ∨ ∃ error, v' = .error (.execution error))

/-- the same reads are asked for with the same nodes -/
theorem Knowledge.asks_congr {K : Knowledge} {parent : SealedHeader} {number : ℕ}
    (h : w.stateWitness = w'.stateWitness) (hasks : K.Asks laws block parent w number) :
    K.Asks laws block parent w' number := by
  obtain ⟨trie, hreveal, hmem⟩ := hasks
  refine ⟨trie, ?_, hmem⟩
  simp only [revealWitness, witnessNodes, ← h]
  exact hreveal

/-- what the block itself fails decides every verdict -/
theorem Settles.agrees_malformed {error : ConsensusError} (h : EngineTree.validateBlock E block = .error error)
    (h' : Settles laws W code block (some w) v) :
    Agrees EngineTree.ProviderError v (.error (.consensus error)) ∨
      AsksBlockHash laws W code block w v (.error (.consensus error)) := by
  cases h' with
  | malformed hv =>
    cases h.symm.trans hv
    exact Or.inl (Agrees.refl _ _)
  | judged hknown hp hjudge =>
    have hsame := hjudge w rfl StateRoot.sortedSchedule
    rw [Knowledge.judge_validateBlock h] at hsame
    exact Or.inl hsame.symm
  | blockHash hknown hp hasks =>
    obtain ⟨number, hasks⟩ := hasks w rfl
    exact Or.inr ⟨⟨_, number, hknown, hp, hasks⟩, Or.inl ⟨_, rfl⟩⟩

/-- two verdicts on one block with the same nodes -/
theorem Settles.agrees (h : Settles laws W code block (some w) v) (h' : Settles laws W code block (some w') v')
    (hnodes : w.stateWitness = w'.stateWitness) :
    Agrees EngineTree.ProviderError v v' ∨ AsksBlockHash laws W code block w v v' := by
  cases h with
  | malformed hv =>
    rcases h'.agrees_malformed hv with hsame | ⟨⟨parent, number, hknown, hp, hasks⟩, hends⟩
    · exact Or.inl hsame.symm
    · exact Or.inr ⟨⟨parent, number, hknown, hp, Knowledge.asks_congr hnodes.symm hasks⟩, hends.symm⟩
  | blockHash hknown hp hasks =>
    obtain ⟨number, hasks⟩ := hasks w rfl
    exact Or.inr ⟨⟨_, number, hknown, hp, hasks⟩, Or.inl ⟨_, rfl⟩⟩
  | @judged parent _ hknown hp hjudge =>
    cases h' with
    | malformed hv => exact (Settles.judged hknown hp hjudge).agrees_malformed hv
    | blockHash hknown' hp' hasks =>
      obtain ⟨number, hasks⟩ := hasks w' rfl
      exact Or.inr ⟨⟨_, number, hknown', hp', Knowledge.asks_congr hnodes.symm hasks⟩, Or.inr ⟨_, rfl⟩⟩
    | @judged parent' _ hknown' hp' hjudge' =>
      -- a hash stands for one header
      have hparent : parent = parent' := hknown.eq hknown' (hp.trans hp'.symm)
      subst hparent
      have hsame := hjudge' w' rfl StateRoot.sortedSchedule
      rw [← Knowledge.judge_congr hnodes] at hsame
      exact Or.inl ((hjudge w rfl StateRoot.sortedSchedule).symm.trans hsame)

namespace Node

/-- **Verdicts agree.** Two nodes in any states of any two runs, whatever witnesses they were sent. Where both come to a
verdict on one block with the same nodes, it is the same verdict up to which error of the state root, or the execution
asks for a block hash and one of them ended without it. -/
theorem verdicts_agree (laws : EvmLaws E) (hleaf : LeafLaw E) (hmap : StorageTrieMap E) (W : World)
    (code : B256 → Option Bytecode) {n n' : Node E} (hn : n.Reached (settlement laws W code) W)
    (hn' : n'.Reached (settlement laws W code) W) {i j : Insertion} (hi : i ∈ n.engine.tree.insertions)
    (hj : j ∈ n'.engine.tree.insertions) (hblock : i.block = j.block) {w w' : ExecutionWitness}
    (hw : i.witness = some w) (hw' : j.witness = some w') (hnodes : w.stateWitness = w'.stateWitness)
    {v v' : Except InsertBlockErrorKind Unit} (hv : i.verdict = some v) (hv' : j.verdict = some v') :
    Agrees EngineTree.ProviderError v v' ∨ AsksBlockHash laws W code i.block w v v' := by
  have hupholds := EngineTree.settlement_upholds laws hleaf hmap W code
  have hsettles := (hn.holdsTo hupholds).judged i hi v hv
  have hsettles' := (hn'.holdsTo hupholds).judged j hj v' hv'
  rw [hw] at hsettles
  rw [hw', ← hblock] at hsettles'
  exact hsettles.agrees hsettles' hnodes

/-! ## Two runs with one block -/

open FullNode (tallyEnv tallyBlock tallyWorld tallyWitness tallyNode tallyTrie tallyCodec tally)

theorem tallyEnv_leafLaw : LeafLaw tallyEnv where
  account root w trie a value hreveal hvalue := by
    simp only [revealWitness, tallyEnv, tallyTrie] at hreveal
    split_ifs at hreveal with hnode
    cases hreveal
    change ((∅ : FMap B256 Bytes).set 0 _).get a = some value at hvalue
    rw [FMap.get_set] at hvalue
    split_ifs at hvalue
    · refine ⟨tallyNode root, WitnessDatabase.mem_witnessNodes hnode, ?_⟩
      rw [← hvalue]
      rfl
    · cases (FMap.get_empty a).symm.trans hvalue

theorem tallyEnv_storageTrieMap : StorageTrieMap tallyEnv where
  take_other t _ _ hne := FMap.get_del_ne t.2 (Ne.symm hne)
  take_comm t a b _ := Prod.ext rfl (FMap.del_comm t.2 a b)
  insert_comm t s s' _ _ hne := Prod.ext rfl (FMap.set_comm t.2 s s' hne)

/-- the payload comes without a witness, and a peer sends these nodes with this size -/
def tallySized (size : ℕ) : List (NodeEvent tallyEnv) :=
  [.arrive (.newPayload (tallyBlock 1, none) 1), .poll ⟨Network.silent, false, StateRoot.sortedSchedule, none, none⟩,
    .poll ⟨{ Network.silent with witness := fun _ => some ⟨[tallyNode 1], size⟩ }, false, StateRoot.sortedSchedule,
      none, none⟩]

/-- the state that they end in -/
def tallyEnd (size : ℕ) : Node tallyEnv :=
  Run.run step (launch tallyEnv ⟨∅, none, none⟩ tallyWorld.genesis) (tallySized size)

theorem tallySized_delivered : ∀ size ∈ [65, 66], (Run.run step (launch tallyEnv ⟨∅, none, none⟩ tallyWorld.genesis)
    ((tallySized size).take 2)).engine.delivered ⟨{ Network.silent with
      witness := fun _ => some ⟨[tallyNode 1], size⟩ }, false, StateRoot.sortedSchedule, none, none⟩ =
        some (.witness (tallyBlock 1).hash ⟨[tallyNode 1], size⟩) := by
  decide +kernel

theorem tallySized_fits : ∀ size ∈ [65, 66], Run.AllSteps step
    (fun n event => EventFits tallyWorld n event ∧ EventServed (settlement tally.evm tallyWorld fun _ => none) n event)
    (launch tallyEnv ⟨∅, none, none⟩ tallyWorld.genesis) (tallySized size) := by
  intro size hsize
  refine ⟨⟨?_, trivial⟩, ⟨?_, rfl, ?_⟩, ⟨?_, rfl, ?_⟩, trivial⟩
  · intro b hb
    cases hb
    exact tallyBlock_knows
  · intro data hdata
    cases tallyRun_delivered.1.symm.trans hdata
  · intro data hdata
    cases tallyRun_delivered.1.symm.trans hdata
  · intro data hdata
    cases (tallySized_delivered size hsize).symm.trans hdata
    trivial
  · intro data hdata
    cases (tallySized_delivered size hsize).symm.trans hdata
    trivial

theorem tallyCodes (code : B256 → Option Bytecode) (hash : B256) (bytecode : Bytecode)
    (h : (⟨∅, none, none⟩ : RessDatabase).bytecodes.get hash = some bytecode) : code hash = some bytecode := by
  cases (FMap.get_empty hash).symm.trans h

theorem tallyEnd_reached (size : ℕ) (hsize : size ∈ [65, 66]) :
    (tallyEnd size).Reached (settlement tally.evm tallyWorld fun _ => none) tallyWorld :=
  ⟨⟨∅, none, none⟩, tallySized size, tallyCodes _, tallySized_fits size hsize, rfl⟩

/-- the second call of each run has the witness, and its block is valid -/
theorem tallyEnd_insertions : ∀ size ∈ [65, 66], ((tallyEnd size).engine.tree.insertions.map fun i =>
    (i.block, i.witness, i.verdict)) =
      [(tallyBlock 1, none, none), (tallyBlock 1, some ⟨[tallyNode 1], size⟩, some (.ok ()))] := by
  decide +kernel

theorem tallyEnd_valid (size : ℕ) (hsize : size ∈ [65, 66]) : ∃ i ∈ (tallyEnd size).engine.tree.insertions,
    i.block = tallyBlock 1 ∧ i.witness = some ⟨[tallyNode 1], size⟩ ∧ i.verdict = some (.ok ()) := by
  have hmem : (tallyBlock 1, some (⟨[tallyNode 1], size⟩ : ExecutionWitness), some (.ok ())) ∈
      (tallyEnd size).engine.tree.insertions.map fun i => (i.block, i.witness, i.verdict) := by
    rw [tallyEnd_insertions size hsize]
    exact List.mem_cons_of_mem _ List.mem_cons_self
  obtain ⟨i, hi, heq⟩ := List.mem_map.1 hmem
  simp only [Prod.mk.injEq] at heq
  exact ⟨i, hi, heq⟩

/-- the runs end with the same verdict, whatever the sizes -/
theorem verdicts_agree_tally : ∃ i ∈ (tallyEnd 65).engine.tree.insertions, ∃ j ∈ (tallyEnd 66).engine.tree.insertions,
    i.witness ≠ j.witness ∧ ∃ v v', i.verdict = some v ∧ j.verdict = some v' ∧
      (Agrees EngineTree.ProviderError v v' ∨
        AsksBlockHash tally.evm tallyWorld (fun _ => none) i.block ⟨[tallyNode 1], 65⟩ v v') := by
  obtain ⟨i, hi, hblock, hw, hv⟩ := tallyEnd_valid 65 (by decide)
  obtain ⟨j, hj, hblock', hw', hv'⟩ := tallyEnd_valid 66 (by decide)
  refine ⟨i, hi, j, hj, ?_, _, _, hv, hv', verdicts_agree tally.evm tallyEnv_leafLaw tallyEnv_storageTrieMap tallyWorld
    (fun _ => none) (tallyEnd_reached 65 (by decide)) (tallyEnd_reached 66 (by decide)) hi hj
    (hblock.trans hblock'.symm) hw hw' rfl hv hv'⟩
  rw [hw, hw']
  decide

/-! ## Canonical hashes -/

open EngineTree (Coherent)

section Hashes

variable {t t' : EngineTree E}

/-- two block hashes that are answered below one stored parent -/
theorem blockHash_agrees (h : Coherent W t) (h' : Coherent W t') {parent : Block}
    (hget : t.provider.chainState.blocksByHash.get parent.hash = some parent)
    (hget' : t'.provider.chainState.blocksByHash.get parent.hash = some parent) {number : ℕ}
    (hlow : parent.number - 255 ≤ number) (hhigh : number ≤ parent.number) {hash hash' : B256}
    (hanswer : t.provider.blockHash parent.numHash number = some hash)
    (hanswer' : t'.provider.blockHash parent.numHash number = some hash') : hash = hash' := by
  obtain ⟨hanc, hnumber⟩ := h.chain.toSound.blockHash_sound parent hget number hash hlow hhigh hanswer
  obtain ⟨hanc', hnumber'⟩ := h'.chain.toSound.blockHash_sound parent hget' number hash' hlow hhigh hanswer'
  exact Ancestry.unique World.link_fun World.link_num hanc hanc' (hnumber.num_eq.trans hnumber'.num_eq.symm)

/-- two canonical entries at a height, no higher than a common ancestor of the heads -/
theorem canonical_agrees (h : Coherent W t) (h' : Coherent W t') {fork : B256}
    (hfork : W.Anc t.canonicalHead.hash fork) (hfork' : W.Anc t'.canonicalHead.hash fork) {number : ℕ}
    (hle : number ≤ W.num fork) {hash hash' : B256}
    (hentry : t.provider.chainState.canonicalHashesByNumber.get number = some hash)
    (hentry' : t'.provider.chainState.canonicalHashesByNumber.get number = some hash') : hash = hash' := by
  have hnumber := h.chain.toSound.state.canon _ _ hentry
  have hnumber' := h'.chain.toSound.state.canon _ _ hentry'
  have hanc : W.Anc fork hash := Ancestry.of_le World.link_fun World.link_num hfork
    (h.chain.toSound.canonAnc _ _ hentry) (by rw [hnumber.num_eq]; exact hle)
  have hanc' : W.Anc fork hash' := Ancestry.of_le World.link_fun World.link_num hfork'
    (h'.chain.toSound.canonAnc _ _ hentry') (by rw [hnumber'.num_eq]; exact hle)
  exact Ancestry.unique World.link_fun World.link_num hanc hanc' (hnumber.num_eq.trans hnumber'.num_eq.symm)

end Hashes

/-- **Hashes agree.** Two nodes in any states of any two runs whose finalized downloads fit: no height up to a common
ancestor of their heads has two canonical hashes, and they answer a block hash below a block that both store alike. -/
theorem hashes_agree (W : World) (database database' : RessDatabase) {events events' : List (NodeEvent E)}
    (hevents : Run.AllSteps step (EventFits W) (launch E database W.genesis) events)
    (hevents' : Run.AllSteps step (EventFits W) (launch E database' W.genesis) events') :
    let t := (Run.run step (launch E database W.genesis) events).engine.tree
    let t' := (Run.run step (launch E database' W.genesis) events').engine.tree
    (∀ fork number hash hash', W.Anc t.canonicalHead.hash fork → W.Anc t'.canonicalHead.hash fork →
      number ≤ W.num fork → t.provider.chainState.canonicalHashesByNumber.get number = some hash →
        t'.provider.chainState.canonicalHashesByNumber.get number = some hash' → hash = hash') ∧
      ∀ parent number hash hash', t.provider.chainState.blocksByHash.get parent.hash = some parent →
        t'.provider.chainState.blocksByHash.get parent.hash = some parent → parent.number - 255 ≤ number →
          number ≤ parent.number → t.provider.blockHash parent.numHash number = some hash →
            t'.provider.blockHash parent.numHash number = some hash' → hash = hash' := by
  have hcoherent : ∀ (database : RessDatabase) {events : List (NodeEvent E)},
      Run.AllSteps step (EventFits W) (launch E database W.genesis) events →
        Coherent W (Run.run step (launch E database W.genesis) events).engine.tree := by
    intro database events hevents
    exact (Run.run_invariant (I := Orderly W (Chain.Coherent W))
      (fun n event h hfits => h.step (Chain.coherent_kept W) hfits)
      (orderly_launch W database (Chain.coherent_launch W)) hevents).tree
  have h := hcoherent database hevents
  have h' := hcoherent database' hevents'
  refine ⟨?_, ?_⟩
  · exact fun fork number hash hash' hfork hfork' hle => canonical_agrees h h' hfork hfork' hle
  · exact fun parent number hash hash' hget hget' hlow hhigh => blockHash_agrees h h' hget hget' hlow hhigh

open Chain (mainBlock mainBlock_anc mainBlock_knows mainAncestors twoBranches)

/-- the finalized download of one block of the main branch -/
def finalizedRun (n : ℕ) : List (NodeEvent smallEnv) :=
  [forkchoice 399 (mainBlock n).hash 1, idle false, finalizedReady n]

theorem finalizedRun_delivered : ∀ n ∈ [258, 300],
    (smallNode [forkchoice 399 (mainBlock n).hash 1]).engine.delivered
        ⟨Network.silent, false, StateRoot.sortedSchedule, none, none⟩ = none ∧
      (smallNode [forkchoice 399 (mainBlock n).hash 1, idle false]).engine.delivered (readyIo n) =
        some (.finalizedBlock (mainBlock n) (mainAncestors n 256)) := by
  decide +kernel

theorem finalizedRun_start : ∀ n ∈ [258, 300],
    let s := (smallNode [forkchoice 399 (mainBlock n).hash 1, idle false]).engine.tree.provider.chainState
    s.canonicalHashesByNumber.keys = {0} ∧ s.canonicalHashesByNumber.get 0 = some (mainBlock 0).hash := by
  decide +kernel

theorem finalizedRun_fits {n : ℕ} (hn : n ∈ [258, 300]) : Run.AllSteps step (EventFits twoBranches)
    (launch smallEnv ⟨∅, none, none⟩ twoBranches.genesis) (finalizedRun n) := by
  have hbounds : n < 400 ∧ 256 ≤ n := by
    simp only [List.mem_cons, List.not_mem_nil, or_false] at hn
    omega
  refine ⟨trivial, ?_, ?_, trivial⟩
  · intro data hdata
    cases (finalizedRun_delivered n hn).1.symm.trans hdata
  · intro data hdata
    cases (finalizedRun_delivered n hn).2.symm.trans hdata
    exact mainBlock_fits hbounds.1 hbounds.2 (finalizedRun_start n hn).1 (finalizedRun_start n hn).2

/-- one node downloads block 258 and another one block 300: they have the same hash at height 200 -/
theorem hashes_agree_finalized :
    (smallNode (finalizedRun 258)).engine.tree.provider.chainState.canonicalHashesByNumber.get 200 =
      (smallNode (finalizedRun 300)).engine.tree.provider.chainState.canonicalHashesByNumber.get 200 := by
  have hhead : (smallNode (finalizedRun 258)).engine.tree.canonicalHead.hash = (mainBlock 258).hash ∧
      (smallNode (finalizedRun 300)).engine.tree.canonicalHead.hash = (mainBlock 300).hash := by decide +kernel
  have hsome : ((smallNode (finalizedRun 258)).engine.tree.provider.chainState.canonicalHashesByNumber.get 200).isSome ∧
      ((smallNode (finalizedRun 300)).engine.tree.provider.chainState.canonicalHashesByNumber.get 200).isSome := by
    decide +kernel
  obtain ⟨hash, hentry⟩ := Option.isSome_iff_exists.1 hsome.1
  obtain ⟨hash', hentry'⟩ := Option.isSome_iff_exists.1 hsome.2
  have hle : 200 ≤ twoBranches.num (mainBlock 258).hash := by
    rw [(mainBlock_knows (n := 258) (by omega)).hasNumber.num_eq]
    decide
  have hsame := (hashes_agree twoBranches ⟨∅, none, none⟩ ⟨∅, none, none⟩ (finalizedRun_fits (n := 258) (by decide))
    (finalizedRun_fits (n := 300) (by decide))).1 (mainBlock 258).hash 200 hash hash'
    (hhead.1 ▸ Relation.ReflTransGen.refl) (hhead.2 ▸ mainBlock_anc (by omega) (by omega)) hle hentry hentry'
  rw [hentry, hentry', hsame]

end Node

end Ress
