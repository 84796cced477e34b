/-
A node beside a full node, over whole runs.

The node never holds the state. What it holds to be valid is what a full node accepts, and what it refuses a full node
refuses with the same error, as long as what is downloaded is what it should be: a witness has the paths that its block
reads and writes (`Honest`), a bytecode is the one of its hash, and a finalized block is one that the full node accepts.
The codes that an execution reads are in the database then, because the leaf of an account that is read names its code.

- `judgement`: every stored block is reached by the full node, and every call of `insert_block` ended as the full node
  judges the block (`Judged`).
- `insertBlock_judged`: one call.
- `runs_fully_validated`: every run.
-/
import Ress.Engine.JudgedRuns
import Ress.Tree.FullNode

namespace Ress

namespace FullNode

variable {E : Env}

/-- the witness suffices for the block with this hash, on the state of its parent -/
def Honest (N : FullNode E) (W : World) (hash : B256) (w : ExecutionWitness) : Prop :=
  ∀ parent T block, N.Reaches W parent T → block.hash = hash → block.parentHash = parent.hash →
    W.Knows block.toSealedHeader → EngineTree.validateBlock E block = .ok () →
      N.Suffices (N.store W parent.hash T) block w

/-- the full node refuses the block with this error, on any state or on the state of its parent; or the execution on it
asks for a block hash -/
inductive Rejects (N : FullNode E) (W : World) (block : Block) : InsertBlockErrorKind → Prop
  | anywhere {kind : InsertBlockErrorKind} (h : ∀ F parent, N.judge F parent block = .error kind) :
      Rejects N W block kind
  | onParent {kind : InsertBlockErrorKind} {parent : Block} {T : FullState E.codec} (hT : N.Reaches W parent T)
      (hp : block.parentHash = parent.hash)
      (h : N.judge (N.store W parent.hash T) parent.toSealedHeader block = .error kind) : Rejects N W block kind
  | blockHash {error : BlockExecutionError} {parent : Block} {T : FullState E.codec} {number : ℕ}
      (hT : N.Reaches W parent T) (hp : block.parentHash = parent.hash)
      (h : .blockHash number ∈ (N.evm.program block).trail (N.store W parent.hash T).database.answer) :
      Rejects N W block (.execution error)

/-- a call of `insert_block` that ended as the full node judges the block -/
def Judged (N : FullNode E) (W : World) (i : Insertion) : Prop :=
  match i.result with
  | .ok (.inserted .valid) => ∃ T, N.Reaches W i.block T
  | .ok _ => True
  | .error kind => N.Rejects W i.block kind

/-- witnesses are trusted to suffice, and finalized blocks to be accepted -/
def judgement (N : FullNode E) (W : World) : Judgement E where
  code := N.code
  honest := N.Honest W
  sound block := ∃ T, N.Reaches W block T
  judged := N.Judged W

variable {N : FullNode E} {W : World} {block : Block}

/-- a block that fails a check of its own is refused anywhere -/
theorem rejects_validateBlock {error : ConsensusError} (h : EngineTree.validateBlock E block = .error error) :
    N.Rejects W block (.consensus error) := by
  refine .anywhere fun F parent => ?_
  simp only [judge, h]
  rfl

/-- a block that does not fit its parent is refused on its state -/
theorem rejects_parent {parent : Block} {T : FullState E.codec} {error : ConsensusError} (hT : N.Reaches W parent T)
    (hp : block.parentHash = parent.hash) (hv : EngineTree.validateBlock E block = .ok ())
    (h : E.consensus.validateHeaderAgainstParent block.toSealedHeader parent.toSealedHeader = .error error) :
    N.Rejects W block (.consensus error) := by
  refine .onParent hT hp ?_
  simp only [judge, hv, h]
  rfl

/-- a block that the full node accepts leads to a state -/
theorem reaches_child {parent : Block} {T : FullState E.codec} (hT : N.Reaches W parent T) (hlaw : N.LawfulOn T)
    (hknown : W.Knows block.toSealedHeader) (hp : block.parentHash = parent.hash)
    (h : N.judge (N.store W parent.hash T) parent.toSealedHeader block = .ok ()) : ∃ T', N.Reaches W block T' := by
  have hverdict := (judge_ok h).2.2
  cases hexec : executeOn E (N.store W parent.hash T).database block with
  | error error =>
    simp only [verdict, hexec] at hverdict
    cases hverdict
  | ok executed =>
    obtain ⟨result, state⟩ := executed
    obtain ⟨T', happlied⟩ := (hlaw.post _ block result state rfl hexec).next
    exact ⟨T', .child hT ⟨hknown, hp, h, result, state, hexec, happlied⟩⟩

theorem map_ok {r : Except InsertBlockErrorKind Unit} {x : InsertPayloadOk} (h : r.map (fun _ => x) = .ok x) :
    r = .ok () := by
  cases r with
  | error kind => cases h
  | ok _ => rfl

theorem map_error {r : Except InsertBlockErrorKind Unit} {x : InsertPayloadOk} {kind : InsertBlockErrorKind}
    (h : r.map (fun _ => x) = .error kind) : r = .error kind := by
  cases r with
  | error kind => cases h; rfl
  | ok _ => cases h

end FullNode

namespace EngineTree

open StateRoot (accountLeaves)

variable {E : Env} {N : FullNode E} {W : World} {t : EngineTree E}

/-! ## One insertion -/

section Insertion

variable {parent block : Block} {T : FullState E.codec} {w : ExecutionWitness}

/-- **A code that the execution reads** is in the database: the witness has the leaf of its account. -/
theorem fullNode_code_here (hlaw : N.LawfulOn T) (hsuffices : N.Suffices (N.store W parent.hash T) block w)
    {K : Knowledge} (hknows : t.Knows K block w) {codeHash : B256}
    (hcode : .codeByHash codeHash ∈ (N.evm.program block).trail (N.store W parent.hash T).database.answer) :
    ¬ t.provider.Lacks block.parentNumHash (.codeByHash codeHash) := by
  obtain ⟨address, info, haccount, hinfo, rfl, hne⟩ := N.evm.codes _ block codeHash hcode
  obtain ⟨trie, hreveal⟩ : ∃ trie, revealWitness E (N.paths T).root w = .ok trie := hsuffices.revealed
  have hbasic : WitnessDatabase.basic ⟨t.provider, block.parentNumHash, trie⟩ address = _ :=
    WitnessDatabase.basic_supplied (F := N.store W parent.hash T) hlaw.law hreveal address (hsuffices.reads _ haccount)
  have hmem := WitnessDatabase.basic_code hlaw.law hlaw.leaf hreveal (hbasic.trans hinfo) hne
  obtain ⟨bytecode, hget⟩ := hknows.named _ hmem
  exact fun hlacks => hlacks bytecode hget

/-- **The execution of a child of a stored block** ends as the full node judges it, or the full node asks for a block
hash there. -/
theorem insertBlock_fullNode_or (h : HoldsTo (N.judgement W) W t) (hlaw : N.Lawful W)
    (hdefault : E.isEmpty ⟨0, 0, none⟩ = true) (hread : t.provider.database.readError = none)
    (sched : StateRoot.Schedule) (hknown : W.Knows block.toSealedHeader) (hhonest : N.Honest W block.hash w)
    (hcodes : w.bytecodeHashes E.codec ⊆ t.codes) (hnew : ¬ t.Stored block.hash)
    (hparent : t.provider.chainState.blocksByHash.get parent.hash = some parent) (hp : block.parentHash = parent.hash)
    (hT : N.Reaches W parent T) (hv : validateBlock E block = .ok ())
    (ha : E.consensus.validateHeaderAgainstParent block.toSealedHeader parent.toSealedHeader = .ok ()) :
    (t.insertBlock sched block (some w)).1 =
        (N.judge (N.store W parent.hash T) parent.toSealedHeader block).map (fun _ => .inserted .valid) ∨
      (∃ number, .blockHash number ∈ (N.evm.program block).trail (N.store W parent.hash T).database.answer) ∧
        ∃ error, (t.insertBlock sched block (some w)).1 = .error (.execution error) := by
  obtain ⟨hrooted, hroot⟩ := hT.stateRoot hlaw
  have hlawT := hlaw.states parent T hT
  have hknows := h.knows hread hparent hp ha hcodes
  have hsuffices : N.Suffices (N.store W parent.hash T) block w := hhonest parent T block hT rfl hp hknown hv
  have hsealed : t.provider.sealedHeader block.parentHash = some parent.toSealedHeader :=
    ChainState.sealedHeader_some.2 ⟨parent, hp ▸ hparent, rfl⟩
  rcases insertBlock_judge_or (F := N.store W parent.hash T) hdefault hrooted hlawT hnew hsealed hp.symm hroot
    (fun _ _ => ⟨hsuffices, hknows.code, hknows.blockHash⟩) sched with hsame | ⟨⟨read, hmem, hlacks⟩, herror⟩
  · exact Or.inl hsame
  · refine Or.inr ⟨?_, herror⟩
    cases read with
    | basic address => exact hlacks.elim
    | storage address slot => exact hlacks.elim
    | codeByHash codeHash => exact absurd hlacks (fullNode_code_here hlawT hsuffices hknows hmem)
    | blockHash number => exact ⟨number, hmem⟩

/-- **One insertion.** With an honest witness whose codes are there, a call of `insert_block` ends as the full node
judges the block. -/
theorem insertBlock_judged (h : HoldsTo (N.judgement W) W t) (hlaw : N.Lawful W)
    (hdefault : E.isEmpty ⟨0, 0, none⟩ = true) (hread : t.provider.database.readError = none)
    (sched : StateRoot.Schedule) {mw : Option ExecutionWitness} (hknown : W.Knows block.toSealedHeader)
    (hmw : ∀ w, mw = some w → N.Honest W block.hash w ∧ w.bytecodeHashes E.codec ⊆ t.codes) :
    N.Judged W ⟨block, mw, t.codes, (t.insertBlock sched block mw).1⟩ := by
  -- the stored parent, with the state that the full node has after it
  have hstored : ∀ x, t.provider.sealedHeader block.parentHash = some x → ∃ parent T,
      x = parent.toSealedHeader ∧ t.provider.chainState.blocksByHash.get parent.hash = some parent ∧
        block.parentHash = parent.hash ∧ { x with hash := block.parentHash } = parent.toSealedHeader ∧
        N.Reaches W parent T := by
    intro x hx
    obtain ⟨parent, hget, hp, hheader, hsame⟩ := h.parent hx
    obtain ⟨T, hT⟩ := h.stored _ _ hget
    exact ⟨parent, T, hheader, hget, hp, hsame, hT⟩
  have hchecks := insertBlock_checks t sched block mw
  simp only [FullNode.Judged]
  cases hr : (t.insertBlock sched block mw).1 with
  | ok result =>
    rw [hr] at hchecks
    rcases result with _ | _ | _ | _
    · trivial
    · obtain ⟨w, rfl, hnew, hv, x, hx, ha, -⟩ := hchecks
      obtain ⟨hhonest, hcodes⟩ := hmw w rfl
      obtain ⟨parent, T, rfl, hget, hp, hsame, hT⟩ := hstored x hx
      rw [hsame] at ha
      rcases insertBlock_fullNode_or h hlaw hdefault hread sched hknown hhonest hcodes hnew hget hp hT hv ha with
        hjudge | ⟨-, error, herror⟩
      · rw [hr] at hjudge
        exact FullNode.reaches_child hT (hlaw.states parent T hT) hknown hp (FullNode.map_ok hjudge.symm)
      · cases hr.symm.trans herror
    · trivial
    · trivial
  | error kind =>
    rw [hr] at hchecks
    obtain ⟨hnew, ⟨error, hv, rfl⟩ | ⟨hv, x, hx, ⟨error, ha, rfl⟩ | ⟨ha, w, rfl, hexec⟩⟩⟩ := hchecks
    · exact FullNode.rejects_validateBlock hv
    · obtain ⟨parent, T, rfl, hget, hp, hsame, hT⟩ := hstored x hx
      rw [hsame] at ha
      exact FullNode.rejects_parent hT hp hv ha
    · obtain ⟨hhonest, hcodes⟩ := hmw w rfl
      obtain ⟨parent, T, rfl, hget, hp, hsame, hT⟩ := hstored x hx
      rw [hsame] at ha
      rcases insertBlock_fullNode_or h hlaw hdefault hread sched hknown hhonest hcodes hnew hget hp hT hv ha with
        hjudge | ⟨⟨number, hnumber⟩, error, herror⟩
      · rw [hr] at hjudge
        exact .onParent hT hp (FullNode.map_error hjudge.symm)
      · cases hr.symm.trans herror
        exact .blockHash hT hp hnumber

end Insertion

theorem fullNode_upholds (hlaw : N.Lawful W) (hdefault : E.isEmpty ⟨0, 0, none⟩ = true) :
    Upholds (N.judgement W) W where
  genesis := ⟨N.genesis, .genesis⟩
  judge sched _ _ h hread hknown hmw := insertBlock_judged h hlaw hdefault hread sched hknown hmw
  valid i hjudged hvalid := by
    change N.Judged W i at hjudged
    simp only [FullNode.Judged, hvalid] at hjudged
    exact hjudged

end EngineTree

namespace Node

open ConsensusEngine (OutcomeServed)

variable {E : Env}

/-- **Fully validated.** In every run whose downloads bring what they should, in every state: every stored block is one
that the full node accepts, and every call of `insert_block` ended as the full node judges the block. -/
theorem runs_fully_validated (N : FullNode E) (W : World) (hlaw : N.Lawful W)
    (hdefault : E.isEmpty ⟨0, 0, none⟩ = true) (database : RessDatabase)
    (hcodes : ∀ hash bytecode, database.bytecodes.get hash = some bytecode → N.code hash = some bytecode)
    (events : List (NodeEvent E))
    (hevents : Run.AllSteps step (fun n event => EventFits W n event ∧ EventServed (N.judgement W) n event)
      (launch E database W.genesis) events) :
    Run.Always step (fun n =>
      (∀ hash block, n.engine.tree.provider.chainState.blocksByHash.get hash = some block → ∃ T, N.Reaches W block T) ∧
        ∀ i ∈ n.engine.tree.insertions, N.Judged W i) (launch E database W.genesis) events :=
  fun pre post hsplit =>
    have h := runs_holdTo (EngineTree.fullNode_upholds hlaw hdefault) database hcodes hevents pre post hsplit
    ⟨h.stored, h.judged⟩

/-! ## A block whose witness is downloaded -/

open FullNode (tallyEnv tallyBlock tallyWorld tallyWitness tally tallyState)

/-- a payload comes without a witness, and then the witness is there -/
def tallyRun : List (NodeEvent tallyEnv) :=
  [.arrive (.newPayload (tallyBlock 1, none) 1), .poll ⟨Network.silent, false, StateRoot.sortedSchedule, none, none⟩,
    .poll ⟨{ Network.silent with witness := fun _ => some (tallyWitness 1) }, false, StateRoot.sortedSchedule, none,
      none⟩]

theorem tallyBlock_knows : tallyWorld.Knows (tallyBlock 1).toSealedHeader := rfl

/-- the state below a child of genesis is the one with nonce 1, because the root of its header is 1 -/
theorem tallyWitness_honest : tally.Honest tallyWorld (tallyBlock 1).hash (tallyWitness 1) := by
  intro parent T block hT hhash hp hknown _
  have hblock : block.toSealedHeader = (tallyBlock 1).toSealedHeader := hknown.eq tallyBlock_knows hhash
  have hparent : parent.toSealedHeader = (tallyBlock 0).toSealedHeader := by
    refine hT.known.eq tallyWorld.genesis_known (hp.symm.trans ?_)
    exact congrArg (fun x : SealedHeader => x.parentHash) hblock
  obtain ⟨nonce, rfl⟩ := FullNode.tally_reaches hT
  have hroot := (hT.stateRoot FullNode.tally_lawful).2
  rw [show parent.stateRoot = 1 from congrArg (fun x : SealedHeader => x.stateRoot) hparent] at hroot
  have hnonce : nonce = 1 := ((hroot.trans (FullNode.tallyState_root nonce))).symm
  exact FullNode.tally_suffices 1 _ (congrArg tallyState hnonce) block

/-- what the passes of the run deliver -/
theorem tallyRun_delivered :
    ((launch tallyEnv ⟨∅, none, none⟩ tallyWorld.genesis).step
        (.arrive (.newPayload (tallyBlock 1, none) 1))).engine.delivered
          ⟨Network.silent, false, StateRoot.sortedSchedule, none, none⟩ = none ∧
      (((launch tallyEnv ⟨∅, none, none⟩ tallyWorld.genesis).step (.arrive (.newPayload (tallyBlock 1, none) 1))).step
        (.poll ⟨Network.silent, false, StateRoot.sortedSchedule, none, none⟩)).engine.delivered
          ⟨{ Network.silent with witness := fun _ => some (tallyWitness 1) }, false, StateRoot.sortedSchedule, none,
            none⟩ = some (.witness (tallyBlock 1).hash (tallyWitness 1)) := by
  decide +kernel

theorem runs_fully_validated_tally :
    Run.Always step (fun n =>
      (∀ hash block, n.engine.tree.provider.chainState.blocksByHash.get hash = some block →
          ∃ T, tally.Reaches tallyWorld block T) ∧
        ∀ i ∈ n.engine.tree.insertions, tally.Judged tallyWorld i)
      (launch tallyEnv ⟨∅, none, none⟩ tallyWorld.genesis) tallyRun := by
  refine runs_fully_validated tally tallyWorld FullNode.tally_lawful rfl ⟨∅, none, none⟩ ?_ tallyRun ?_
  · intro hash bytecode h
    cases (FMap.get_empty hash).symm.trans h
  · refine ⟨⟨?_, trivial⟩, ⟨?_, rfl, ?_⟩, ⟨?_, rfl, ?_⟩, trivial⟩
    · intro b hb
      cases hb
      exact tallyBlock_knows
    · intro data hdata
      cases tallyRun_delivered.1.symm.trans hdata
    · intro data hdata
      cases tallyRun_delivered.1.symm.trans hdata
    · intro data hdata
      cases tallyRun_delivered.2.symm.trans hdata
      trivial
    · intro data hdata
      cases tallyRun_delivered.2.symm.trans hdata
      exact tallyWitness_honest

end Node

end Ress
