/-
What a node serves to its peers (`impl RessProtocolProvider for RessProvider` in `crates/provider/src/provider.rs`): the
headers, bodies and witnesses of the chain state, and the bytecodes of the database.

A witness that is not there is served as an empty one.
-/
import Ress.Provider.RessProvider

namespace Ress

namespace ChainState

def header (s : ChainState) (hash : B256) : Option Header := (s.blocksByHash.get hash).map (·.toHeader)

def blockBody (s : ChainState) (hash : B256) : Option BlockBody := (s.blocksByHash.get hash).map (·.body)

def witness (s : ChainState) (hash : B256) : Option (List Bytes) := s.witnesses.get hash

variable {s : ChainState} {hash : B256} {header : Header} {body : BlockBody}

/-- header and body are those of one stored block -/
theorem served_block (hheader : s.header hash = some header) (hbody : s.blockBody hash = some body) :
    ∃ block, s.blocksByHash.get hash = some block ∧ block.toHeader = header ∧ block.body = body := by
  obtain ⟨block, hblock, rfl⟩ := Option.map_eq_some_iff.1 hheader
  obtain ⟨block', hblock', rfl⟩ := Option.map_eq_some_iff.1 hbody
  cases hblock.symm.trans hblock'
  exact ⟨block, hblock, rfl, rfl⟩

end ChainState

namespace RessProvider

def header (p : RessProvider) (blockHash : B256) : Except ProviderError (Option Header) :=
  .ok (p.chainState.header blockHash)

def blockBody (p : RessProvider) (blockHash : B256) : Except ProviderError (Option BlockBody) :=
  .ok (p.chainState.blockBody blockHash)

def bytecode (p : RessProvider) (codeHash : B256) : Except ProviderError (Option Bytes) := do
  return (← (p.database.getBytecode codeHash).mapError .database).map (·.originalBytes)

def witness (p : RessProvider) (blockHash : B256) : Except ProviderError (List Bytes) :=
  .ok ((p.chainState.witness blockHash).getD [])

end RessProvider

end Ress
