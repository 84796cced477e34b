/-
The components this node takes from `reth` and `revm`, as parameters of the model. Nothing is assumed of them beyond
the fields that state a property; each of these is documented behaviour of the component.

- `EngineValidator`: `EthereumEngineValidator`. A payload it finds well formed has the block hash that it claims.
- `EthBeaconConsensus`: the consensus checks. A header accepted against its parent names the parent's hash and has the
  next number.
- `Evm`, `Database`: block execution over a database of four reads.
- `SparseTrie`: `SparseStateTrie` and `SparseTrie`. What is assumed of them is stated where it is used.
- `InvalidHeaderCache`: a bounded map from hash to invalid block that may forget entries and never invents one.
- `ForkchoiceStateTracker`: the last forkchoice states received.

`smallEnv` is an environment of executable components that meet these properties, for runs on concrete inputs.
-/
import Ress.Primitives

namespace Ress

/-- `EthereumEngineValidator` -/
structure EngineValidator where
  ExecutionData : Type
  PayloadAttributes : Type
  parentHash : ExecutionData → B256
  blockHash : ExecutionData → B256
  ensureWellFormedPayload : ExecutionData → Except PayloadError Block
  validatePayloadAttributesAgainstHeader : PayloadAttributes → Header → Except String Unit
  /-- `EthPayloadBuilderAttributes::try_new` -/
  tryNewPayloadBuilderAttributes : B256 → PayloadAttributes → ℕ → Except String Unit
  wellFormed_hash : ∀ p b, ensureWellFormedPayload p = .ok b → b.hash = blockHash p

/-- the reads of `revm::Database` -/
structure Database (AccountInfo : Type) where
  basic : Address → Except ProviderError (Option AccountInfo)
  storage : Address → U256 → Except ProviderError U256
  codeByHash : B256 → Except ProviderError Bytecode
  blockHash : ℕ → Except ProviderError B256

/-- account information handed to the EVM -/
structure AccountInfo where
  balance : U256
  nonce : ℕ
  codeHash : B256
deriving DecidableEq, Repr

/-- an account of a post state -/
structure Account where
  nonce : ℕ
  balance : U256
  bytecodeHash : Option B256
deriving DecidableEq, Repr, Inhabited

/-- storage update of one account -/
structure HashedStorage where
  wiped : Bool
  storage : FMap B256 U256

/-- updates of a block by hashed address -/
structure HashedPostState where
  accounts : FMap B256 (Option Account)
  storages : FMap B256 HashedStorage

/-- the block executor of `reth_evm_ethereum` -/
structure Evm where
  Strategy : Type
  BlockExecutionResult : Type
  BundleState : Type
  executorForBlock : Database AccountInfo → Block → Strategy
  applyPreExecutionChanges : Strategy → Except BlockExecutionError Strategy
  executeTransaction : Strategy → Bytes → Except BlockExecutionError Strategy
  applyPostExecutionChanges : Strategy → Except BlockExecutionError (BlockExecutionResult × Strategy)
  takeBundle : Strategy → BundleState
  fromBundleState : BundleState → HashedPostState

/-- `EthBeaconConsensus<ChainSpec>` -/
structure EthBeaconConsensus (BlockExecutionResult : Type) where
  /-- checked with the total difficulty `U256::MAX` -/
  validateHeaderWithTotalDifficulty : Header → Except ConsensusError Unit
  validateHeader : SealedHeader → Except ConsensusError Unit
  validateBlockPreExecution : Block → Except ConsensusError Unit
  validateHeaderAgainstParent : SealedHeader → SealedHeader → Except ConsensusError Unit
  validateBlockPostExecution : Block → BlockExecutionResult → Except ConsensusError Unit
  against_parent : ∀ h p, validateHeaderAgainstParent h p = .ok () → h.parentHash = p.hash ∧ h.number = p.number + 1

/-- `SparseStateTrie` and `SparseTrie` of `reth_trie_sparse`; leaves are named by their hashed key, which
`Nibbles::unpack` turns into a path -/
structure SparseTrie where
  StateTrie : Type
  StorageTrie : Type
  new : StateTrie
  revealWitness : StateTrie → B256 → FMap B256 Bytes → Except String StateTrie
  getAccountValue : StateTrie → B256 → Option Bytes
  getStorageSlotValue : StateTrie → B256 → B256 → Option Bytes
  takeStorageTrie : StateTrie → B256 → Option StorageTrie × StateTrie
  insertStorageTrie : StateTrie → B256 → StorageTrie → StateTrie
  storageTrieMut : StateTrie → B256 → Option StorageTrie
  updateAccountLeaf : StateTrie → B256 → Bytes → Except String StateTrie
  removeAccountLeaf : StateTrie → B256 → Except String StateTrie
  root : StateTrie → Except String B256
  revealedEmpty : StorageTrie
  wipe : StorageTrie → Except String StorageTrie
  updateLeaf : StorageTrie → B256 → Bytes → Except String StorageTrie
  removeLeaf : StorageTrie → B256 → Except String StorageTrie
  storageRoot : StorageTrie → B256

/-- `InvalidHeaderCache`: `entries` is its content; a lookup may forget entries, an insertion adds at most its own -/
structure InvalidHeaderCache where
  Cache : Type
  new : Cache
  entries : Cache → FMap B256 BlockWithParent
  get : Cache → B256 → Option BlockWithParent × Cache
  insert : Cache → BlockWithParent → Cache
  insertWithInvalidAncestor : Cache → B256 → BlockWithParent → Cache
  entries_new : entries new = ∅
  get_entry : ∀ c h x, (get c h).1 = some x → (entries c).get h = some x
  get_forgets : ∀ c h k x, (entries (get c h).2).get k = some x → (entries c).get k = some x
  insert_entry : ∀ c x k y, (entries (insert c x)).get k = some y →
    (entries c).get k = some y ∨ k = x.block.hash ∧ y = x
  insertWith_entry : ∀ c h x k y, (entries (insertWithInvalidAncestor c h x)).get k = some y →
    (entries c).get k = some y ∨ k = h ∧ y = x

/-- a cache that evicts nothing: an entry stays as it is, and a block is put in only where its hash has none -/
structure InvalidHeaderCache.Retains (cache : InvalidHeaderCache) : Prop where
  get : ∀ c h k, (cache.entries (cache.get c h).2).get k = (cache.entries c).get k
  insert : ∀ c x k, (cache.entries (cache.insert c x)).get k =
    ((cache.entries c).get k).or (if k = x.block.hash then some x else none)

/-- after an insertion its hash has an entry, a new one or the one that was there -/
structure InvalidHeaderCache.Marks (cache : InvalidHeaderCache) : Prop where
  insert : ∀ c x, (cache.entries (cache.insert c x)).get x.block.hash ≠ none
  insertWith : ∀ c h x, (cache.entries (cache.insertWithInvalidAncestor c h x)).get h ≠ none

/-- a lookup finds the entry that is there: none is evicted by it -/
def InvalidHeaderCache.Finds (cache : InvalidHeaderCache) : Prop :=
  ∀ c h, (cache.get c h).1 = (cache.entries c).get h

/-- `ForkchoiceStateTracker` -/
structure ForkchoiceStateTracker where
  Tracker : Type
  default : Tracker
  /-- `set_latest(state, outcome.forkchoice_status())` -/
  setLatest : Tracker → ForkchoiceState → OnForkChoiceUpdated → Tracker
  syncTargetState : Tracker → Option ForkchoiceState

/-- everything the node is built from and does not define itself -/
structure Env where
  codec : StateCodec
  /-- `Account::is_empty` -/
  isEmpty : Account → Bool
  /-- `Account::into_trie_account` -/
  intoTrieAccount : Account → B256 → TrieAccount
  validator : EngineValidator
  evm : Evm
  consensus : EthBeaconConsensus evm.BlockExecutionResult
  trie : SparseTrie
  cache : InvalidHeaderCache
  tracker : ForkchoiceStateTracker
  /-- `InsertBlockErrorKind::ensure_validation_error`, answering the text of the validation error -/
  ensureValidationError : InsertBlockErrorKind → Except InsertBlockFatalError String
  /-- `SealedBlock::try_recover` succeeds: the sender of every transaction is recovered -/
  tryRecover : Block → Bool

/-! ## A small environment -/

/-- the number that a byte string spells, as a hash -/
def spell (bytes : Bytes) : B256 := BitVec.ofNat 256 (bytes.foldl (fun n byte => n * 256 + byte.toNat) 0)

/-- a node is a leaf when it starts with 1; an account is its code hash; 0 is the hash of the empty code -/
def smallCodec : StateCodec where
  keccak256 := spell
  keccakEmpty := 0
  emptyRootHash := 0
  decodeLeaf
    | 1 :: value => some value
    | _ => none
  decodeTrieAccount bytes := some ⟨0, 0, 0, spell bytes⟩
  encodeTrieAccount account := [UInt8.ofNat account.codeHash.toNat]
  decodeU256 bytes := some (spell bytes)
  encodeU256 value := [UInt8.ofNat value.toNat]

/-- a payload is a block, or one that is not well formed -/
def smallValidator : EngineValidator where
  ExecutionData := Block × Option PayloadError
  PayloadAttributes := Unit
  parentHash payload := payload.1.parentHash
  blockHash payload := payload.1.hash
  ensureWellFormedPayload payload :=
    match payload.2 with
    | none => .ok payload.1
    | some error => .error error
  validatePayloadAttributesAgainstHeader _ _ := .ok ()
  tryNewPayloadBuilderAttributes _ _ _ := .ok ()
  wellFormed_hash := by
    rintro ⟨b, e⟩ b' h
    cases e with
    | none => cases h; rfl
    | some e => cases h

/-- a block is executed when the account at address 0 can be read -/
def smallEvm : Evm where
  Strategy := Except ProviderError (Option AccountInfo)
  BlockExecutionResult := Unit
  BundleState := Unit
  executorForBlock db _ := db.basic 0
  applyPreExecutionChanges
    | .ok (some account) => .ok (.ok (some account))
    | .ok none => .error (.validation "no account")
    | .error _ => .error (.internal "database")
  executeTransaction strategy _ := .ok strategy
  applyPostExecutionChanges strategy := .ok ((), strategy)
  takeBundle _ := ()
  fromBundleState _ := ⟨∅, ∅⟩

def smallConsensus : EthBeaconConsensus Unit where
  validateHeaderWithTotalDifficulty _ := .ok ()
  validateHeader _ := .ok ()
  validateBlockPreExecution _ := .ok ()
  validateHeaderAgainstParent h p :=
    if h.parentHash = p.hash ∧ h.number = p.number + 1 then .ok () else .error (.other "parent")
  validateBlockPostExecution _ _ := .ok ()
  against_parent h p hok := by
    by_contra hne
    rw [if_neg hne] at hok
    cases hok

/-- the revealed nodes with the root; every account is the one in the node `[1, 0]`, and its slot 7 is in `[3]` -/
def smallTrie : SparseTrie where
  StateTrie := B256 × FMap B256 Bytes
  StorageTrie := Unit
  new := (0, ∅)
  revealWitness _ root nodes := .ok (root, nodes)
  getAccountValue trie _ := if trie.2.get 256 = some [1, 0] then some [0] else none
  getStorageSlotValue trie _ slot :=
    if slot = 7 ∧ trie.2.get 256 = some [1, 0] ∧ trie.2.get 3 = some [3] then some [5] else none
  takeStorageTrie trie _ := (none, trie)
  insertStorageTrie trie _ _ := trie
  storageTrieMut _ _ := none
  updateAccountLeaf trie _ _ := .ok trie
  removeAccountLeaf trie _ := .ok trie
  root trie := .ok trie.1
  revealedEmpty := ()
  wipe _ := .ok ()
  updateLeaf _ _ _ := .ok ()
  removeLeaf _ _ := .ok ()
  storageRoot _ := 0

/-- put in an entry where there is none -/
def putFirst (cache : FMap B256 BlockWithParent) (hash : B256) (block : BlockWithParent) : FMap B256 BlockWithParent :=
  if (cache.get hash).isNone then cache.set hash block else cache

theorem get_putFirst (cache : FMap B256 BlockWithParent) (hash : B256) (block : BlockWithParent) (k : B256) :
    (putFirst cache hash block).get k = (cache.get k).or (if k = hash then some block else none) := by
  unfold putFirst
  cases hold : cache.get hash with
  | none =>
    rw [Option.isNone_none, if_pos rfl, FMap.get_set]
    split_ifs with hk
    · rw [hk, hold, Option.none_or]
    · rw [Option.or_none]
  | some old =>
    rw [if_neg (by simp)]
    split_ifs with hk
    · rw [hk, hold, Option.some_or]
    · rw [Option.or_none]

theorem putFirst_entry {cache : FMap B256 BlockWithParent} {hash k : B256} {block y : BlockWithParent}
    (h : (putFirst cache hash block).get k = some y) : cache.get k = some y ∨ k = hash ∧ y = block := by
  rw [get_putFirst] at h
  rcases Option.or_eq_some_iff.1 h with hold | ⟨-, hnew⟩
  · exact Or.inl hold
  · split_ifs at hnew with hk
    exact Or.inr ⟨hk, (Option.some.inj hnew).symm⟩

theorem putFirst_marks (cache : FMap B256 BlockWithParent) (hash : B256) (block : BlockWithParent) :
    (putFirst cache hash block).get hash ≠ none := by
  rw [get_putFirst, if_pos rfl]
  cases cache.get hash <;> simp

/-- a cache that evicts nothing -/
def smallCache : InvalidHeaderCache where
  Cache := FMap B256 BlockWithParent
  new := ∅
  entries cache := cache
  get cache hash := (cache.get hash, cache)
  insert cache block := putFirst cache block.block.hash block
  insertWithInvalidAncestor cache hash block := putFirst cache hash block
  entries_new := rfl
  get_entry _ _ _ h := h
  get_forgets _ _ _ _ h := h
  insert_entry _ _ _ _ h := putFirst_entry h
  insertWith_entry _ _ _ _ _ h := putFirst_entry h

theorem smallCache_retains : smallCache.Retains :=
  ⟨fun _ _ _ => rfl, fun c x k => get_putFirst c x.block.hash x k⟩

theorem smallCache_marks : smallCache.Marks :=
  ⟨fun c x => putFirst_marks c x.block.hash x, fun c hash x => putFirst_marks c hash x⟩

theorem smallCache_finds : smallCache.Finds := fun _ _ => rfl

/-- the sync target is the last state whose head was not known -/
def smallTracker : ForkchoiceStateTracker where
  Tracker := Option ForkchoiceState
  default := none
  setLatest target state outcome :=
    match outcome with
    | .valid ⟨.syncing, _⟩ => some state
    | .valid _ => none
    | _ => target
  syncTargetState target := target

def smallEnv : Env where
  codec := smallCodec
  isEmpty account := account.nonce = 0 ∧ account.balance = 0
  intoTrieAccount account root := ⟨account.nonce, account.balance, root, account.bytecodeHash.getD 0⟩
  validator := smallValidator
  evm := smallEvm
  consensus := smallConsensus
  trie := smallTrie
  cache := smallCache
  tracker := smallTracker
  ensureValidationError
    | .consensus _ => .ok "consensus"
    | .execution (.validation text) => .ok text
    | .execution (.internal text) => .error (.blockExecutionError text)
    | .provider error => .error (.provider error)
  tryRecover _ := true

/-- the witness with which every block executes -/
def smallWitness : ExecutionWitness := ⟨[[1, 0]], 2⟩

/-- a witness with which no block executes -/
def junkWitness : ExecutionWitness := ⟨[[2]], 1⟩

end Ress
