/-
The EVM database over a revealed sparse trie (`crates/evm/src/db.rs`) and the block executor that reads it
(`crates/evm/src/executor.rs`).
-/
import Ress.Reth
import Ress.Provider.RessProvider

namespace Ress

/-- big-endian bytes of a word -/
def beBytes {n : ℕ} (x : BitVec n) : Bytes :=
  ((List.range (n / 8)).reverse.map fun i => UInt8.ofNat (x.toNat / 256 ^ i))

/-- the nodes of a witness by their hash -/
def witnessNodes (C : StateCodec) (witness : ExecutionWitness) : FMap B256 Bytes :=
  witness.stateWitness.foldl (fun nodes encoded => nodes.set (C.keccak256 encoded) encoded) ∅

/-- the trie revealed from the nodes of a witness, as `insert_block` does -/
def revealWitness (E : Env) (stateRoot : B256) (witness : ExecutionWitness) : Except String E.trie.StateTrie :=
  E.trie.revealWitness E.trie.new stateRoot (witnessNodes E.codec witness)

structure WitnessDatabase (E : Env) where
  provider : RessProvider
  parent : BlockNumHash
  trie : E.trie.StateTrie

namespace WitnessDatabase

variable {E : Env}

/-- account information of an address; an account that the trie does not answer is absent -/
def basic (db : WitnessDatabase E) (address : Address) : Except ProviderError (Option AccountInfo) :=
  match E.trie.getAccountValue db.trie (E.codec.keccak256 (beBytes address)) with
  | none => .ok none
  | some bytes =>
    match E.codec.decodeTrieAccount bytes with
    | none => .error .rlp
    | some account => .ok (some ⟨account.balance, account.nonce, account.codeHash⟩)

/-- storage value; a slot that the trie does not answer is zero -/
def storage (db : WitnessDatabase E) (address : Address) (slot : U256) : Except ProviderError U256 :=
  let hashedAddress := E.codec.keccak256 (beBytes address)
  let hashedSlot := E.codec.keccak256 (beBytes slot)
  match E.trie.getStorageSlotValue db.trie hashedAddress hashedSlot with
  | none => .ok 0
  | some value =>
    match E.codec.decodeU256 value with
    | none => .error .rlp
    | some value => .ok value

/-- account code; a code that is not stored is an error -/
def codeByHash (db : WitnessDatabase E) (codeHash : B256) : Except ProviderError Bytecode :=
  match db.provider.getBytecode codeHash with
  | .error error => .error (.database error)
  | .ok none => .error (.trieWitnessError ("bytecode for 0x" ++ codeHash.toHex ++ " not found"))
  | .ok (some bytecode) => .ok bytecode

/-- block hash; a number that the provider does not answer is an error -/
def blockHash (db : WitnessDatabase E) (blockNumber : ℕ) : Except ProviderError B256 :=
  match db.provider.blockHash db.parent blockNumber with
  | none => .error (.stateForNumberNotFound blockNumber)
  | some hash => .ok hash

def toDatabase (db : WitnessDatabase E) : Database AccountInfo := ⟨db.basic, db.storage, db.codeByHash, db.blockHash⟩

end WitnessDatabase

namespace BlockExecutor

/-- execute a block: pre-execution changes, each transaction in order, post-execution changes -/
def execute (E : Env) (db : WitnessDatabase E) (block : Block) :
    Except BlockExecutionError (E.evm.BlockExecutionResult × E.evm.BundleState) := do
  let strategy ← E.evm.applyPreExecutionChanges (E.evm.executorForBlock db.toDatabase block)
  let strategy ← block.body.transactions.foldlM E.evm.executeTransaction strategy
  let (result, strategy) ← E.evm.applyPostExecutionChanges strategy
  return (result, E.evm.takeBundle strategy)

end BlockExecutor

end Ress
