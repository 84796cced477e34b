/-
What the EVM reads, and the database of a node that has the whole state.

- `EvmLaws`: what is assumed of the block executor. It is a program over the four reads of the database; a read that
  fails ends it, it asks for the code of accounts that it has read, and for block hashes of the last 256 heights.
- `FullStore`: state, codes and block hashes of a full node; `FullStore.database` answers every read from them.
- `Supplies`: a witness has what answers a read of the state.
- `answer_supplied`: the witness database then answers the read as the full node does.
-/
import Ress.Evm.WitnessReads
import Ress.Lib.Reading

namespace Ress

/-! ## Reads -/

inductive Read where
  | basic (address : Address)
  | storage (address : Address) (slot : U256)
  | codeByHash (codeHash : B256)
  | blockHash (number : ℕ)

/-- what a read is answered with, if it succeeds -/
def Read.Value : Read → Type
  | .basic _ => Option AccountInfo
  | .storage _ _ => U256
  | .codeByHash _ => Bytecode
  | .blockHash _ => B256

abbrev Read.Answer (read : Read) : Type := Except ProviderError read.Value

def Database.answer (db : Database AccountInfo) : ∀ read : Read, read.Answer
  | .basic address => db.basic address
  | .storage address slot => db.storage address slot
  | .codeByHash codeHash => db.codeByHash codeHash
  | .blockHash number => db.blockHash number

/-! ## Execution over any database -/

/-- `BlockExecutor::execute` over a database -/
def executeOn (E : Env) (db : Database AccountInfo) (block : Block) :
    Except BlockExecutionError (E.evm.BlockExecutionResult × E.evm.BundleState) := do
  let strategy ← E.evm.applyPreExecutionChanges (E.evm.executorForBlock db block)
  let strategy ← block.body.transactions.foldlM E.evm.executeTransaction strategy
  let (result, strategy) ← E.evm.applyPostExecutionChanges strategy
  return (result, E.evm.takeBundle strategy)

/-- the executor runs over the witness database -/
theorem execute_eq_executeOn (E : Env) (db : WitnessDatabase E) (block : Block) :
    BlockExecutor.execute E db block = executeOn E db.toDatabase block := rfl

/-- what is assumed of the block executor -/
structure EvmLaws (E : Env) where
  program : Block → Reading.Program Read Read.Answer
    (Except BlockExecutionError (E.evm.BlockExecutionResult × E.evm.BundleState))
  execute : ∀ (db : Database AccountInfo) block, executeOn E db block = (program block).run db.answer
  /-- a failed read ends the execution -/
  fails : ∀ (db : Database AccountInfo) block read error, read ∈ (program block).trail db.answer →
    db.answer read = .error error → ∃ error, executeOn E db block = .error error
  /-- a code is loaded for an account that has been read -/
  codes : ∀ (db : Database AccountInfo) block codeHash, .codeByHash codeHash ∈ (program block).trail db.answer →
    ∃ address info, .basic address ∈ (program block).trail db.answer ∧ db.basic address = .ok (some info) ∧
      info.codeHash = codeHash ∧ codeHash ≠ E.codec.keccakEmpty
  /-- `BLOCKHASH` looks at the last 256 blocks -/
  recent : ∀ (db : Database AccountInfo) block number, .blockHash number ∈ (program block).trail db.answer →
    block.number - 256 ≤ number ∧ number < block.number

/-! ## A full node's database -/

open Classical in
/-- the hash of the ancestor at a height -/
noncomputable def World.ancestorHash (W : World) (hash : B256) (number : ℕ) : Option B256 :=
  if h : ∃ k, W.Anc hash k ∧ W.HasNumber k number then some h.choose else none

theorem World.ancestorHash_eq {W : World} {hash k : B256} {number : ℕ} (hanc : W.Anc hash k)
    (hnum : W.HasNumber k number) : W.ancestorHash hash number = some k := by
  have hex : ∃ k, W.Anc hash k ∧ W.HasNumber k number := ⟨k, hanc, hnum⟩
  simp only [ancestorHash]
  rw [dif_pos hex]
  refine congrArg some (Ancestry.unique World.link_fun World.link_num hex.choose_spec.1 hanc ?_)
  rw [hex.choose_spec.2.num_eq, hnum.num_eq]

/-- the whole state, the codes, and the hashes of the ancestors -/
structure FullStore (E : Env) where
  state : FullState E.codec
  code : B256 → Option Bytecode
  blockHash : ℕ → Option B256

namespace FullStore

variable {E : Env}

def account (F : FullStore E) (address : Address) : Option TrieAccount :=
  F.state.account (E.codec.keccak256 (beBytes address))

def slot (F : FullStore E) (address : Address) (slot : U256) : U256 :=
  F.state.slot (E.codec.keccak256 (beBytes address)) (E.codec.keccak256 (beBytes slot))

def database (F : FullStore E) : Database AccountInfo where
  basic address := .ok ((F.account address).map fun x => ⟨x.balance, x.nonce, x.codeHash⟩)
  storage address slot := .ok (F.slot address slot)
  codeByHash codeHash :=
    match F.code codeHash with
    | some bytecode => .ok bytecode
    | none => .error (.trieWitnessError "code")
  blockHash number :=
    match F.blockHash number with
    | some hash => .ok hash
    | none => .error (.stateForNumberNotFound number)

/-- the nodes that answer a read of the state are in the witness; what is absent needs none -/
def Supplies (F : FullStore E) (P : Paths) (w : ExecutionWitness) : Read → Prop
  | .basic address => F.account address = none ∨
      Supplied E.codec w (P.account (E.codec.keccak256 (beBytes address)))
  | .storage address slot => F.slot address slot = 0 ∨
      Supplied E.codec w (P.slot (E.codec.keccak256 (beBytes address)) (E.codec.keccak256 (beBytes slot)))
  | .codeByHash _ => True
  | .blockHash _ => True

/-- the codes, and the block hashes of the last 256 heights, that the provider answers are those of the full node -/
structure Agrees (F : FullStore E) (provider : RessProvider) (block : Block) : Prop where
  code : ∀ codeHash bytecode, provider.getBytecode codeHash = .ok (some bytecode) → F.code codeHash = some bytecode
  blockHash : ∀ number hash, block.number - 256 ≤ number → number < block.number →
    provider.blockHash block.parentNumHash number = some hash → F.blockHash number = some hash

end FullStore

/-- the provider lacks what a read asks for -/
def RessProvider.Lacks (provider : RessProvider) (parent : BlockNumHash) : Read → Prop
  | .codeByHash codeHash => ∀ bytecode, provider.getBytecode codeHash ≠ .ok (some bytecode)
  | .blockHash number => provider.blockHash parent number = none
  | _ => False

/-- the last node on the path to an account is its leaf -/
def Paths.LeafEnds {C : StateCodec} (P : Paths) (T : FullState C) : Prop :=
  ∀ a x, T.account a = some x → ∃ node ∈ P.account a, C.decodeLeaf node = some (C.encodeTrieAccount x)

/-! ## The witness database beside it -/

namespace WitnessDatabase

variable {E : Env} {F : FullStore E} {P : Paths} {w : ExecutionWitness} {db : WitnessDatabase E}

theorem basic_supplied (law : RevealLaw E F.state P) (hreveal : revealWitness E P.root w = .ok db.trie)
    (address : Address) (h : F.Supplies P w (.basic address)) : db.basic address = F.database.basic address := by
  have hsound := (basicSound_iff law hreveal address).2 h
  have hok : ∃ r, db.basic address = .ok r := by
    simp only [basic]
    rcases getAccountValue_eq law hreveal (E.codec.keccak256 (beBytes address)) with ⟨hnone, -⟩ | ⟨x, hsome, hx, -⟩
    · rw [hnone]
      exact ⟨_, rfl⟩
    · simp only [hsome, F.state.account_codec _ _ hx]
      exact ⟨_, rfl⟩
  obtain ⟨r, hr⟩ := hok
  rw [hr, hsound r hr]
  rfl

theorem storage_supplied (law : RevealLaw E F.state P) (hreveal : revealWitness E P.root w = .ok db.trie)
    (address : Address) (slot : U256) (h : F.Supplies P w (.storage address slot)) :
    db.storage address slot = F.database.storage address slot := by
  have hsound := (storageSound_iff law hreveal address slot).2 h
  have hok : ∃ v, db.storage address slot = .ok v := by
    simp only [storage]
    rcases getStorageSlotValue_eq law hreveal (E.codec.keccak256 (beBytes address))
      (E.codec.keccak256 (beBytes slot)) with ⟨hnone, -⟩ | ⟨hsome, -, -⟩
    · rw [hnone]
      exact ⟨_, rfl⟩
    · simp only [hsome, F.state.slot_codec]
      exact ⟨_, rfl⟩
  obtain ⟨v, hv⟩ := hok
  rw [hv, hsound v hv]
  rfl

/-- a node that a witness supplies is one of its nodes -/
theorem mem_witnessNodes {C : StateCodec} {hash : B256} {node : Bytes} (h : (witnessNodes C w).get hash = some node) :
    node ∈ w.stateWitness := by
  simp only [witnessNodes] at h
  have hfold : ∀ (l : List Bytes) (nodes : FMap B256 Bytes),
      (l.foldl (fun nodes encoded => nodes.set (C.keccak256 encoded) encoded) nodes).get hash = some node →
      node ∈ l ∨ nodes.get hash = some node := by
    intro l
    induction l with
    | nil => exact fun nodes h => Or.inr h
    | cons encoded l ih =>
      intro nodes h
      rcases ih _ h with hmem | hget
      · exact Or.inl (List.mem_cons_of_mem _ hmem)
      · rw [FMap.get_set] at hget
        split_ifs at hget
        · exact Or.inl (Option.some.inj hget ▸ List.mem_cons_self)
        · exact Or.inr hget
  rcases hfold w.stateWitness ∅ h with hmem | hnone
  · exact hmem
  · rw [FMap.get_empty] at hnone
    cases hnone

/-- **The code of an account that is answered** is named by the witness: the leaf of the account is in it. -/
theorem basic_code {T : FullState E.codec} (law : RevealLaw E T P) (hleaf : P.LeafEnds T)
    (hreveal : revealWitness E P.root w = .ok db.trie) {address : Address} {info : AccountInfo}
    (h : db.basic address = .ok (some info)) (hcode : info.codeHash ≠ E.codec.keccakEmpty) :
    info.codeHash ∈ w.bytecodeHashes E.codec := by
  simp only [basic] at h
  rcases getAccountValue_eq law hreveal (E.codec.keccak256 (beBytes address)) with ⟨hnone, -⟩ | ⟨x, hsome, hx, hs⟩
  · rw [hnone] at h
    cases h
  · simp only [hsome, T.account_codec _ _ hx] at h
    cases h
    obtain ⟨node, hnode, hdecode⟩ := hleaf _ x hx
    exact w.mem_bytecodeHashes E.codec node _ x (mem_witnessNodes (hs node hnode)) hdecode (T.account_codec _ _ hx) hcode

/-- a read of what the provider lacks fails -/
theorem answer_lacks {read : Read} (h : db.provider.Lacks db.parent read) :
    ∃ error, db.toDatabase.answer read = .error error := by
  cases read with
  | basic address => exact h.elim
  | storage address slot => exact h.elim
  | codeByHash codeHash =>
    simp only [Database.answer, toDatabase, codeByHash]
    cases hcode : db.provider.getBytecode codeHash with
    | error error => exact ⟨_, rfl⟩
    | ok found =>
      cases found with
      | none => exact ⟨_, rfl⟩
      | some bytecode => exact absurd hcode (h bytecode)
  | blockHash number =>
    simp only [RessProvider.Lacks] at h
    simp only [Database.answer, toDatabase, blockHash, h]
    exact ⟨_, rfl⟩

/-- **A read of the witness database.** It is answered as by the full node, or the provider lacks what it asks for. -/
theorem answer_supplied (law : RevealLaw E F.state P) (hreveal : revealWitness E P.root w = .ok db.trie) {block : Block}
    (hparent : db.parent = block.parentNumHash) (hagrees : F.Agrees db.provider block) (read : Read)
    (h : F.Supplies P w read)
    (hrecent : ∀ number, read = .blockHash number → block.number - 256 ≤ number ∧ number < block.number) :
    db.toDatabase.answer read = F.database.answer read ∨ db.provider.Lacks db.parent read := by
  cases read with
  | basic address => exact Or.inl (basic_supplied law hreveal address h)
  | storage address slot => exact Or.inl (storage_supplied law hreveal address slot h)
  | codeByHash codeHash =>
    by_cases hfound : ∃ bytecode, db.provider.getBytecode codeHash = .ok (some bytecode)
    · obtain ⟨bytecode, hbytecode⟩ := hfound
      refine Or.inl ?_
      simp only [Database.answer, toDatabase, codeByHash, FullStore.database, hbytecode,
        hagrees.code codeHash bytecode hbytecode]
      rfl
    · exact Or.inr fun bytecode hbytecode => hfound ⟨bytecode, hbytecode⟩
  | blockHash number =>
    cases hhash : db.provider.blockHash db.parent number with
    | none => exact Or.inr hhash
    | some hash =>
      obtain ⟨hlow, hhigh⟩ := hrecent number rfl
      have hfull := hagrees.blockHash number hash hlow hhigh (hparent ▸ hhash)
      refine Or.inl ?_
      simp only [Database.answer, toDatabase, blockHash, FullStore.database, hhash, hfull]
      rfl

/-- **Execution over a witness** that has every read of the full execution: the result is the full node's, or both ask
for a code or a block hash that the provider lacks, and the execution ends in an error. -/
theorem executeOn_supplied (laws : EvmLaws E) (law : RevealLaw E F.state P)
    (hreveal : revealWitness E P.root w = .ok db.trie) {block : Block} (hparent : db.parent = block.parentNumHash)
    (hagrees : F.Agrees db.provider block)
    (h : ∀ read ∈ (laws.program block).trail F.database.answer, F.Supplies P w read) :
    executeOn E db.toDatabase block = executeOn E F.database block ∨
      ∃ read ∈ (laws.program block).trail F.database.answer,
        read ∈ (laws.program block).trail db.toDatabase.answer ∧ db.provider.Lacks db.parent read ∧
          ∃ error, executeOn E db.toDatabase block = .error error := by
  have hreads : ∀ read ∈ (laws.program block).trail F.database.answer,
      db.toDatabase.answer read = F.database.answer read ∨ db.provider.Lacks db.parent read :=
    fun read hread => answer_supplied law hreveal hparent hagrees read (h read hread)
      fun number hnumber => laws.recent _ block number (hnumber ▸ hread)
  rcases (laws.program block).run_or (fun read _ => db.provider.Lacks db.parent read) hreads with
    ⟨hrun, -⟩ | ⟨read, hfull, hread, hlacks⟩
  · rw [laws.execute, laws.execute, hrun]
    exact Or.inl rfl
  · obtain ⟨error, herror⟩ := answer_lacks hlacks
    exact Or.inr ⟨read, hfull, hread, hlacks, laws.fails _ block read error hread herror⟩

end WitnessDatabase

end Ress
