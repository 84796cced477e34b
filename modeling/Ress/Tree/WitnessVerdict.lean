/-
What a witness decides.

Two nodes that execute a block with the same witness have different databases and different stores. `Knowledge` is what
they know alike: the bytecode of a hash, and the hashes of the ancestors. `Knowledge.judge` is the verdict of a node that
has all of it, and a function of block, parent and witness; nothing is asked of the witness, which may be incomplete.

`executeBlock_judge_or`: a node with the codes that the witness names reaches this verdict, or it lacks a block hash that
is asked for. (The codes of the accounts that can be read are named by the witness: `LeafLaw`.)
-/
import Ress.Evm.FullDatabase
import Ress.Tree.Reordering

namespace Ress

open Writes (Agrees)

/-- what is assumed of `reveal_witness`: an account value that is answered is that of a leaf in the witness -/
structure LeafLaw (E : Env) : Prop where
  account : ∀ root w trie a value, revealWitness E root w = .ok trie → E.trie.getAccountValue trie a = some value →
    ∃ node ∈ w.stateWitness, E.codec.decodeLeaf node = some value

structure Knowledge where
  /-- the bytecode of a hash -/
  code : B256 → Option Bytecode
  /-- the hash of the ancestor at a height -/
  blockHash : ℕ → Option B256

namespace Knowledge

variable {E : Env}

/-- the database of a node that has all of it, over a revealed trie -/
def database (K : Knowledge) (trie : E.trie.StateTrie) : Database AccountInfo where
  basic address := WitnessDatabase.basic ⟨⟨⟨∅, none, none⟩, ChainState.empty⟩, ⟨0, 0⟩, trie⟩ address
  storage address slot := WitnessDatabase.storage ⟨⟨⟨∅, none, none⟩, ChainState.empty⟩, ⟨0, 0⟩, trie⟩ address slot
  codeByHash codeHash :=
    match K.code codeHash with
    | some bytecode => .ok bytecode
    | none => .error (.trieWitnessError "code")
  blockHash number :=
    match K.blockHash number with
    | some hash => .ok hash
    | none => .error (.stateForNumberNotFound number)

end Knowledge

namespace EngineTree

variable {E : Env}

/-- witness, execution, post-execution validation and state root of `insert_block`, over any database -/
def executeBlockOn (E : Env) (database : E.trie.StateTrie → Database AccountInfo) (sched : StateRoot.Schedule)
    (block : Block) (parent : SealedHeader) (witness : ExecutionWitness) : Except InsertBlockErrorKind Unit := do
  let trie ← (revealWitness E parent.stateRoot witness).mapError fun error => .provider (.trieWitnessError error)
  let (result, state) ← (executeOn E (database trie) block).mapError .execution
  (E.consensus.validateBlockPostExecution block result).mapError .consensus
  let stateRoot ← (StateRoot.calculateStateRoot E sched trie (E.evm.fromBundleState state)).mapError fun error =>
    .provider (.trieWitnessError error)
  if stateRoot ≠ block.stateRoot then
    .error (.consensus (.bodyStateRootDiff stateRoot block.stateRoot))

theorem executeBlock_eq_executeBlockOn (t : EngineTree E) (sched : StateRoot.Schedule) (block : Block)
    (parent : SealedHeader) (w : ExecutionWitness) : t.executeBlock sched block parent w = executeBlockOn E
      (fun trie => (⟨t.provider, block.parentNumHash, trie⟩ : WitnessDatabase E).toDatabase) sched block parent w := rfl

end EngineTree

namespace Knowledge

variable {E : Env} {K : Knowledge} {sched : StateRoot.Schedule} {block : Block} {parent : SealedHeader}
  {w w' : ExecutionWitness}

/-- the verdict on a block with a witness, header checks included -/
def judge (E : Env) (K : Knowledge) (sched : StateRoot.Schedule) (block : Block) (parent : SealedHeader)
    (w : ExecutionWitness) : Except InsertBlockErrorKind Unit := do
  (EngineTree.validateBlock E block).mapError .consensus
  (E.consensus.validateHeaderAgainstParent block.toSealedHeader parent).mapError .consensus
  EngineTree.executeBlockOn E K.database sched block parent w

/-- the execution asks for the hash of the block at this height -/
def Asks (laws : EvmLaws E) (K : Knowledge) (block : Block) (parent : SealedHeader) (w : ExecutionWitness) (number : ℕ) :
    Prop :=
  ∃ trie, revealWitness E parent.stateRoot w = .ok trie ∧
    .blockHash number ∈ (laws.program block).trail (K.database trie).answer

/-- the nodes decide, not their recorded size -/
theorem judge_congr (h : w.stateWitness = w'.stateWitness) :
    judge E K sched block parent w = judge E K sched block parent w' := by
  simp only [judge, EngineTree.executeBlockOn, revealWitness, witnessNodes, h]

/-- the schedule of the workers decides nothing but the error of the state root -/
theorem judge_agrees (hmap : StateRoot.StorageTrieMap E) (sched sched' : StateRoot.Schedule) :
    Agrees EngineTree.ProviderError (judge E K sched block parent w) (judge E K sched' block parent w) := by
  refine (Agrees.refl _ _).bind fun _ => (Agrees.refl _ _).bind fun _ => (Agrees.refl _ _).bind fun trie => ?_
  refine (Agrees.refl _ _).bind fun executed => (Agrees.refl _ _).bind fun _ => ?_
  have hroots := StateRoot.calculateStateRoot_agrees hmap sched sched' trie (E.evm.fromBundleState executed.2)
  exact (hroots.mapError fun error _ => ⟨.trieWitnessError error, rfl⟩).bind fun _ => Agrees.refl _ _

/-- the code of an account that can be read is named by the witness -/
theorem code_named (hleaf : LeafLaw E) (laws : EvmLaws E) {trie : E.trie.StateTrie} {root : B256}
    (hreveal : revealWitness E root w = .ok trie) {codeHash : B256}
    (h : .codeByHash codeHash ∈ (laws.program block).trail (K.database trie).answer) :
    codeHash ∈ w.bytecodeHashes E.codec := by
  obtain ⟨address, info, -, hinfo, rfl, hne⟩ := laws.codes _ block codeHash h
  simp only [database, WitnessDatabase.basic] at hinfo
  cases hvalue : E.trie.getAccountValue trie (E.codec.keccak256 (beBytes address)) with
  | none =>
    simp only [hvalue] at hinfo
    cases hinfo
  | some value =>
    simp only [hvalue] at hinfo
    cases haccount : E.codec.decodeTrieAccount value with
    | none =>
      simp only [haccount] at hinfo
      cases hinfo
    | some account =>
      simp only [haccount] at hinfo
      cases hinfo
      obtain ⟨node, hnode, hdecode⟩ := hleaf.account root w trie _ value hreveal hvalue
      exact w.mem_bytecodeHashes E.codec node value account hnode hdecode haccount hne

end Knowledge

namespace EngineTree

variable {E : Env} {t : EngineTree E} {K : Knowledge} {block : Block} {w : ExecutionWitness}

/-- what the provider answers is what is known, and the codes that the witness names are there -/
structure Knows (t : EngineTree E) (K : Knowledge) (block : Block) (w : ExecutionWitness) : Prop where
  code : ∀ codeHash bytecode, t.provider.getBytecode codeHash = .ok (some bytecode) → K.code codeHash = some bytecode
  blockHash : ∀ number hash, block.number - 256 ≤ number → number < block.number →
    t.provider.blockHash block.parentNumHash number = some hash → K.blockHash number = some hash
  named : ∀ codeHash ∈ w.bytecodeHashes E.codec, ∃ bytecode, t.provider.getBytecode codeHash = .ok (some bytecode)

/-- a read is answered as by a node that has everything, or the provider lacks what it asks for -/
theorem answer_known {trie : E.trie.StateTrie} (h : t.Knows K block w) (read : Read)
    (hrecent : ∀ number, read = .blockHash number → block.number - 256 ≤ number ∧ number < block.number) :
    (⟨t.provider, block.parentNumHash, trie⟩ : WitnessDatabase E).toDatabase.answer read =
        (K.database trie).answer read ∨ t.provider.Lacks block.parentNumHash read := by
  cases read with
  | basic address => exact Or.inl rfl
  | storage address slot => exact Or.inl rfl
  | codeByHash codeHash =>
    by_cases hfound : ∃ bytecode, t.provider.getBytecode codeHash = .ok (some bytecode)
    · obtain ⟨bytecode, hbytecode⟩ := hfound
      refine Or.inl ?_
      simp only [Database.answer, WitnessDatabase.toDatabase, WitnessDatabase.codeByHash, Knowledge.database, hbytecode,
        h.code codeHash bytecode hbytecode]
      rfl
    · exact Or.inr fun bytecode hbytecode => hfound ⟨bytecode, hbytecode⟩
  | blockHash number =>
    cases hhash : t.provider.blockHash block.parentNumHash number with
    | none => exact Or.inr hhash
    | some hash =>
      obtain ⟨hlow, hhigh⟩ := hrecent number rfl
      refine Or.inl ?_
      simp only [Database.answer, WitnessDatabase.toDatabase, WitnessDatabase.blockHash, Knowledge.database, hhash,
        h.blockHash number hash hlow hhigh hhash]
      rfl

/-- **A node reaches the verdict of the witness**, or it lacks a block hash that is asked for. -/
theorem executeBlock_known_or (h : t.Knows K block w) (laws : EvmLaws E) (hleaf : LeafLaw E)
    (sched : StateRoot.Schedule) (parent : SealedHeader) :
    t.executeBlock sched block parent w = executeBlockOn E K.database sched block parent w ∨
      (∃ number, K.Asks laws block parent w number ∧ t.provider.blockHash block.parentNumHash number = none) ∧
        ∃ error, t.executeBlock sched block parent w = .error (.execution error) := by
  rw [executeBlock_eq_executeBlockOn]
  cases hreveal : revealWitness E parent.stateRoot w with
  | error error =>
    refine Or.inl ?_
    simp only [executeBlockOn, hreveal]
    rfl
  | ok trie =>
    have hreads : ∀ read ∈ (laws.program block).trail (K.database trie).answer,
        (⟨t.provider, block.parentNumHash, trie⟩ : WitnessDatabase E).toDatabase.answer read =
          (K.database trie).answer read ∨ t.provider.Lacks block.parentNumHash read :=
      fun read hread => answer_known h read fun number hnumber => laws.recent _ block number (hnumber ▸ hread)
    rcases (laws.program block).run_or (fun read _ => t.provider.Lacks block.parentNumHash read) hreads with
      ⟨hrun, -⟩ | ⟨read, hfull, hread, hlacks⟩
    · rw [← laws.execute, ← laws.execute] at hrun
      refine Or.inl ?_
      simp only [executeBlockOn, hreveal, Except.mapError, bind, Except.bind, hrun]
    · have hdb : (⟨t.provider, block.parentNumHash, trie⟩ : WitnessDatabase E).provider.Lacks block.parentNumHash read :=
        hlacks
      obtain ⟨error, hanswer⟩ := WitnessDatabase.answer_lacks hdb
      obtain ⟨error, herror⟩ := laws.fails _ block read error hread hanswer
      refine Or.inr ⟨?_, error, ?_⟩
      · cases read with
        | basic address => exact hlacks.elim
        | storage address slot => exact hlacks.elim
        | codeByHash codeHash =>
          obtain ⟨bytecode, hbytecode⟩ := h.named codeHash (Knowledge.code_named hleaf laws hreveal hfull)
          exact absurd hbytecode (hlacks bytecode)
        | blockHash number => exact ⟨number, ⟨trie, hreveal, hfull⟩, hlacks⟩
      · simp only [executeBlockOn, hreveal, Except.mapError, bind, Except.bind, herror]

end EngineTree

end Ress
