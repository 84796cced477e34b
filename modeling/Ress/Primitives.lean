/-
Primitive types of the stateless node: hashes, headers, blocks, execution witnesses, and the outcome and error types
that its components exchange.

A block carries its hash (`SealedHeader`, `RecoveredBlock`). Hashing and decoding are not modelled: `StateCodec` takes
`keccak256` and the RLP codecs as parameters, and `World` says what the proofs use of the block hash, that a hash
determines its header.

- `Block`: a recovered block: its sealed header and its body. Recovered senders are a function of the body and are
  left out.
- `BlockNumHash.parentNumHash` follows `parent_num_hash`: the number saturates at zero.
- `ExecutionWitness.bytecodeHashes` follows `crates/primitives/src/witness.rs`.
-/
import Ress.Lib.FiniteMap
import Ress.Lib.Ancestry
import Mathlib.Data.BitVec

namespace Ress

/-- 256-bit hash -/
abbrev B256 := BitVec 256

abbrev U256 := BitVec 256

abbrev Address := BitVec 160

abbrev Bytes := List UInt8

abbrev DatabaseError := String

/-! ## Headers and blocks -/

structure BlockNumHash where
  number : ℕ
  hash : B256
deriving DecidableEq, Repr

/-- a block header; the fields that this code never looks at are kept together in `rest` -/
structure Header where
  parentHash : B256
  number : ℕ
  stateRoot : B256
  difficulty : U256
  rest : Bytes
deriving DecidableEq, Repr

structure SealedHeader extends Header where
  hash : B256
deriving DecidableEq, Repr

structure BlockBody where
  transactions : List Bytes
  /-- ommers and withdrawals -/
  rest : Bytes
deriving DecidableEq, Repr

/-- a recovered block -/
structure Block extends SealedHeader where
  body : BlockBody
deriving DecidableEq, Repr

def SealedHeader.numHash (h : SealedHeader) : BlockNumHash := ⟨h.number, h.hash⟩

def SealedHeader.parentNumHash (h : SealedHeader) : BlockNumHash := ⟨h.number - 1, h.parentHash⟩

/-- `block_with_parent`: what the invalid header cache stores -/
structure BlockWithParent where
  parent : B256
  block : BlockNumHash
deriving DecidableEq, Repr

def SealedHeader.blockWithParent (h : SealedHeader) : BlockWithParent := ⟨h.parentHash, h.numHash⟩

/-! ## State and witnesses -/

structure TrieAccount where
  nonce : ℕ
  balance : U256
  storageRoot : B256
  codeHash : B256
deriving DecidableEq, Repr

/-- code of an account, by its raw bytes -/
structure Bytecode where
  originalBytes : Bytes
deriving DecidableEq, Repr

structure ExecutionWitness where
  stateWitness : List Bytes
  rlpSizeBytes : ℕ
deriving DecidableEq, Repr

/-- hashing and the codecs of state values (`alloy_primitives`, `alloy_rlp`, `alloy_trie`, `reth_primitives_traits`) -/
structure StateCodec where
  keccak256 : Bytes → B256
  /-- hash of the empty code -/
  keccakEmpty : B256
  /-- root of the empty trie -/
  emptyRootHash : B256
  /-- `TrieNode::decode`, when it answers a leaf: the leaf's value -/
  decodeLeaf : Bytes → Option Bytes
  decodeTrieAccount : Bytes → Option TrieAccount
  encodeTrieAccount : TrieAccount → Bytes
  decodeU256 : Bytes → Option U256
  encodeU256 : U256 → Bytes

namespace ExecutionWitness

/-- the code hash of one encoded node, when it is an account leaf with code -/
def addCodeHash (C : StateCodec) (hashes : Finset B256) (encoded : Bytes) : Finset B256 :=
  match C.decodeLeaf encoded with
  | some value =>
    match C.decodeTrieAccount value with
    | some account => if account.codeHash ≠ C.keccakEmpty then insert account.codeHash hashes else hashes
    | none => hashes
  | none => hashes

/-- all code hashes found in the witness -/
def bytecodeHashes (C : StateCodec) (w : ExecutionWitness) : Finset B256 := w.stateWitness.foldl (addCodeHash C) ∅

theorem subset_addCodeHash (C : StateCodec) (s : Finset B256) (e : Bytes) : s ⊆ addCodeHash C s e := by
  simp only [addCodeHash]
  split
  · split
    · split_ifs
      · exact Finset.subset_insert _ _
      · exact subset_rfl
    · exact subset_rfl
  · exact subset_rfl

theorem subset_foldl (C : StateCodec) (l : List Bytes) (s : Finset B256) : s ⊆ l.foldl (addCodeHash C) s := by
  induction l generalizing s with
  | nil => exact subset_rfl
  | cons e l ih => exact (subset_addCodeHash C s e).trans (ih _)

/-- the code hash of every account leaf of the witness is listed -/
theorem mem_bytecodeHashes (C : StateCodec) (w : ExecutionWitness) (encoded value : Bytes) (account : TrieAccount)
    (hmem : encoded ∈ w.stateWitness) (hleaf : C.decodeLeaf encoded = some value)
    (hacc : C.decodeTrieAccount value = some account) (hcode : account.codeHash ≠ C.keccakEmpty) :
    account.codeHash ∈ w.bytecodeHashes C := by
  obtain ⟨pre, post, hsplit⟩ := List.append_of_mem hmem
  simp only [bytecodeHashes]
  rw [hsplit, List.foldl_append, List.foldl_cons]
  exact subset_foldl C post _ (by simp [addCodeHash, hleaf, hacc, hcode])

end ExecutionWitness

/-! ## Errors and outcomes -/

inductive ConsensusError where
  | bodyStateRootDiff (got expected : B256)
  | other (reason : String)
deriving DecidableEq, Repr

inductive BlockExecutionError where
  | validation (reason : String)
  | internal (reason : String)
deriving DecidableEq, Repr

inductive ProviderError where
  | trieWitnessError (reason : String)
  | headerNotFound (hash : B256)
  | stateForNumberNotFound (number : ℕ)
  | senderRecoveryError
  | rlp
  | database (error : DatabaseError)
deriving DecidableEq, Repr

inductive InsertBlockErrorKind where
  | consensus (error : ConsensusError)
  | execution (error : BlockExecutionError)
  | provider (error : ProviderError)
deriving DecidableEq, Repr

inductive InsertBlockFatalError where
  | provider (error : ProviderError)
  | blockExecutionError (reason : String)
deriving DecidableEq, Repr

/-- why `ensure_well_formed_payload` refused a payload -/
structure PayloadError where
  isBlockHashMismatch : Bool
  isInvalidVersionedHashes : Bool
  reason : String
deriving DecidableEq, Repr

/-- the source of the `validation_error` text of an INVALID status -/
inductive ValidationError where
  | linksToRejectedPayload
  | malformedPayload (error : PayloadError)
  | insertBlock (reason : String)
deriving DecidableEq, Repr

inductive PayloadStatusEnum where
  | valid
  | invalid (validationError : ValidationError)
  | syncing
deriving DecidableEq, Repr

structure PayloadStatus where
  status : PayloadStatusEnum
  latestValidHash : Option B256
deriving DecidableEq, Repr

structure ForkchoiceState where
  headBlockHash : B256
  safeBlockHash : B256
  finalizedBlockHash : B256
deriving DecidableEq, Repr

/-- answer to a forkchoice update, by the constructor that builds it -/
inductive OnForkChoiceUpdated where
  | valid (status : PayloadStatus)
  | withInvalid (status : PayloadStatus)
  | invalidState
  | invalidPayloadAttributes
deriving DecidableEq, Repr

/-! ## What a block hash determines -/

/-- The block hash as a commitment. `header h` is the header that hashes to `h`; there is at most one, and nothing
hashes to the parent hash of genesis. Results about runs are stated for every `World` that knows the headers the run
is fed, which is to say that these headers have no hash collision among them. -/
structure World where
  header : B256 → Option SealedHeader
  genesis : Block
  hash_eq : ∀ h x, header h = some x → x.hash = h
  genesis_known : header genesis.hash = some genesis.toSealedHeader
  genesis_number : genesis.number = 0
  genesis_root : header genesis.parentHash = none

namespace World

/-- `x` is the header its hash stands for -/
def Knows (W : World) (x : SealedHeader) : Prop := W.header x.hash = some x

/-- `p` is the hash of the parent of the block with hash `d`, one block lower -/
def Link (W : World) (d p : B256) : Prop :=
  ∃ x y, W.header d = some x ∧ W.header p = some y ∧ x.parentHash = p ∧ x.number = y.number + 1

/-- `a` is `d` or an ancestor of `d`, at consecutive heights -/
def Anc (W : World) : B256 → B256 → Prop := Relation.ReflTransGen W.Link

/-- `a` is `d` or an ancestor of `d`, following parent hashes only -/
def Descends (W : World) : B256 → B256 → Prop :=
  Relation.ReflTransGen fun d p => ∃ x, W.header d = some x ∧ x.parentHash = p

/-- the block with this hash has this number -/
def HasNumber (W : World) (h : B256) (n : ℕ) : Prop := ∃ x, W.header h = some x ∧ x.number = n

/-- height of a known hash -/
def num (W : World) (h : B256) : ℕ := (W.header h).elim 0 (·.number)

variable {W : World}

theorem HasNumber.num_eq {h : B256} {n : ℕ} (hn : W.HasNumber h n) : W.num h = n := by
  obtain ⟨x, hx, rfl⟩ := hn
  simp [num, hx]

theorem HasNumber.unique {h : B256} {n m : ℕ} (hn : W.HasNumber h n) (hm : W.HasNumber h m) : n = m :=
  hn.num_eq.symm.trans hm.num_eq

theorem Knows.hasNumber {x : SealedHeader} (h : W.Knows x) : W.HasNumber x.hash x.number := ⟨x, h, rfl⟩

theorem Knows.eq {x y : SealedHeader} (hx : W.Knows x) (hy : W.Knows y) (h : x.hash = y.hash) : x = y := by
  simp only [Knows] at hx hy
  rw [h, hy] at hx
  exact (Option.some.inj hx).symm

theorem link_fun (a b c : B256) (hb : W.Link a b) (hc : W.Link a c) : b = c := by
  obtain ⟨x, _, hx, _, rfl, _⟩ := hb
  obtain ⟨x', _, hx', _, rfl, _⟩ := hc
  rw [hx] at hx'
  cases hx'; rfl

theorem link_num (a b : B256) (h : W.Link a b) : W.num a = W.num b + 1 := by
  obtain ⟨x, y, hx, hy, -, hn⟩ := h
  simpa [num, hx, hy] using hn

/-- genesis stands on no block -/
theorem Link.ne_genesis {d p : B256} (h : W.Link d p) : d ≠ W.genesis.hash := by
  rintro rfl
  have hnum := link_num _ _ h
  have hzero : W.HasNumber W.genesis.hash 0 := ⟨_, W.genesis_known, W.genesis_number⟩
  rw [hzero.num_eq] at hnum
  omega

theorem Link.parent {x : SealedHeader} {p : B256} (hx : W.Knows x) (h : W.Link x.hash p) : x.parentHash = p := by
  obtain ⟨x', _, hx', _, hp, _⟩ := h
  simp only [Knows] at hx
  rw [hx] at hx'
  cases hx'; exact hp

end World

end Ress
