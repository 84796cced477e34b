/-
The provider (`crates/provider/src/provider.rs`): the chain state and the bytecode database behind one interface.
-/
import Ress.Provider.ChainState

namespace Ress

structure RessProvider where
  database : RessDatabase
  chainState : ChainState

namespace RessProvider

def isHashCanonical (p : RessProvider) (hash : B256) : Bool := p.chainState.IsHashCanonical hash

def blockHash (p : RessProvider) (parent : BlockNumHash) (number : ℕ) : Option B256 :=
  p.chainState.blockHash parent number

def blockNumber (p : RessProvider) (hash : B256) : Option ℕ := p.chainState.blockNumber hash

def sealedHeader (p : RessProvider) (hash : B256) : Option SealedHeader := p.chainState.sealedHeader hash

def insertBlock (p : RessProvider) (block : Block) (maybeWitness : Option (List Bytes)) : RessProvider :=
  { p with chainState := p.chainState.insertBlock block maybeWitness }

def getBytecode (p : RessProvider) (codeHash : B256) : Except DatabaseError (Option Bytecode) :=
  p.database.getBytecode codeHash

def insertBytecode (p : RessProvider) (codeHash : B256) (bytecode : Bytecode) : Except DatabaseError RessProvider := do
  return { p with database := ← p.database.insertBytecode codeHash bytecode }

def missingCodeHashes (p : RessProvider) (codeHashes : Finset B256) : Except DatabaseError (Finset B256) :=
  p.database.missingCodeHashes codeHashes

def insertCanonicalHash (p : RessProvider) (number : ℕ) (hash : B256) : RessProvider :=
  { p with chainState := p.chainState.insertCanonicalHash number hash }

/-- update canonical hashes -/
def onChainUpdate (p : RessProvider) (new old : List SealedHeader) : RessProvider :=
  { p with chainState := p.chainState.onChainUpdate new old }

/-- remove blocks and witnesses on finalization; the zero hash finalizes nothing -/
def onFinalized (p : RessProvider) (finalizedHash : B256) : RessProvider :=
  if finalizedHash ≠ 0 then { p with chainState := p.chainState.removeBlocksOnFinalized finalizedHash } else p

end RessProvider

end Ress
