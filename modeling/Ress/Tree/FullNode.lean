/-
A full node beside the stateless one.

A full node keeps the state after every block that it accepts, and judges a block by executing it on the state of its
parent. Nothing of it is taken from the source: it says what the stateless node is for.

- `FullNode`: what a full node is built from; `verdict` is its judgement of a block.
- `Reaches`: the blocks that it accepts, from genesis on, each with the state after it.
- `Suffices`: a witness has all that the execution of a block reads and writes.
- `insertBlock_judge_or`: with such a witness the stateless node judges as the full node does, or a code or a block
  hash that it lacks ends the execution.
- `insertBlock_judge`: where it lacks nothing that is read, the two judge alike, errors included.
-/
import Ress.Evm.FullDatabase
import Ress.Tree.Handling
import Ress.Tree.StateRootComplete

namespace Ress

open StateRoot (RevealLaws CodecLaws Rooted Reveals Complete Paired EmptyRootOnly accountLeaves slotAfter leafAfter
  rootAfter leafUpdated leafComputed calculateStateRoot)

/-! ## The full node -/

structure FullNode (E : Env) where
  tries : SparseTrieLaws E
  reveals : RevealLaws E
  evm : EvmLaws E
  /-- the nodes of the trie of a state -/
  paths : FullState E.codec → Paths
  code : B256 → Option Bytecode
  genesis : FullState E.codec

namespace FullNode

variable {E : Env}

/-- the judgement of a block whose header has been checked: execution, post-execution validation, state root -/
noncomputable def verdict (N : FullNode E) (F : FullStore E) (block : Block) : Except InsertBlockErrorKind Unit := do
  let (result, state) ← (executeOn E F.database block).mapError .execution
  (E.consensus.validateBlockPostExecution block result).mapError .consensus
  let stateRoot := rootAfter N.tries F.state (E.evm.fromBundleState state)
  if stateRoot ≠ block.stateRoot then
    .error (.consensus (.bodyStateRootDiff stateRoot block.stateRoot))

/-- the judgement of a block, header checks included -/
noncomputable def judge (N : FullNode E) (F : FullStore E) (parent : SealedHeader) (block : Block) :
    Except InsertBlockErrorKind Unit := do
  (EngineTree.validateBlock E block).mapError .consensus
  (E.consensus.validateHeaderAgainstParent block.toSealedHeader parent).mapError .consensus
  N.verdict F block

/-- what the node has when it executes a block on the state after `parent` -/
noncomputable def store (N : FullNode E) (W : World) (parent : B256) (T : FullState E.codec) : FullStore E :=
  ⟨T, N.code, W.ancestorHash parent⟩

/-- `T'` is `T` with the post state applied -/
structure Applied (L : SparseTrieLaws E) (T : FullState E.codec) (state : HashedPostState) (T' : FullState E.codec) :
    Prop where
  accounts : accountLeaves T' = leafAfter L T state
  slots : ∀ a, T'.slot a = slotAfter T state a

/-- the node accepts the block on the state after its parent -/
structure Accepts (N : FullNode E) (W : World) (parent : Block) (T : FullState E.codec) (block : Block)
    (T' : FullState E.codec) : Prop where
  known : W.Knows block.toSealedHeader
  parentHash : block.parentHash = parent.hash
  judge : N.judge (N.store W parent.hash T) parent.toSealedHeader block = .ok ()
  applied : ∃ result state, executeOn E (N.store W parent.hash T).database block = .ok (result, state) ∧
    Applied N.tries T (E.evm.fromBundleState state) T'

/-- the blocks that the node accepts, with the state after each -/
inductive Reaches (N : FullNode E) (W : World) : Block → FullState E.codec → Prop
  | genesis : Reaches N W W.genesis N.genesis
  | child {parent block : Block} {T T' : FullState E.codec} (hparent : Reaches N W parent T)
      (haccepts : N.Accepts W parent T block T') : Reaches N W block T'

/-! ## What is assumed -/

/-- what an execution leaves to be applied: it leads to a state, an address with a storage update has an account update,
a removed account leaves no storage, and no other storage has the root of the empty trie -/
structure PostState (L : SparseTrieLaws E) (T : FullState E.codec) (state : HashedPostState) : Prop where
  next : ∃ T', Applied L T state T'
  paired : Paired state
  cleared : ∀ a, state.accounts.get a = some none → slotAfter T state a = fun _ => 0
  emptyRoot : EmptyRootOnly L T state

/-- trie and executor on one state: its root names it, a reveal shows a part of it, and what an execution on it answers
is a post state -/
structure LawfulOn (N : FullNode E) (T : FullState E.codec) : Prop where
  root : (N.paths T).root = N.tries.rootOf (accountLeaves T)
  law : RevealLaw E T (N.paths T)
  leaf : (N.paths T).LeafEnds T
  reveals : ∀ w trie, revealWitness E (N.paths T).root w = .ok trie → Reveals N.tries T trie
  post : ∀ (F : FullStore E) block result state, F.state = T → executeOn E F.database block = .ok (result, state) →
    PostState N.tries T (E.evm.fromBundleState state)

/-- trie, codec and executor, along the chain -/
structure Lawful (N : FullNode E) (W : World) : Prop where
  codec : CodecLaws E
  rooted : Rooted N.tries N.genesis
  root : W.genesis.stateRoot = N.tries.rootOf (accountLeaves N.genesis)
  states : ∀ block T, N.Reaches W block T → N.LawfulOn T

/-- the witness has the path of everything that the full execution reads and writes -/
structure Suffices (N : FullNode E) (F : FullStore E) (block : Block) (w : ExecutionWitness) : Prop where
  revealed : ∃ trie, revealWitness E (N.paths F.state).root w = .ok trie
  reads : ∀ read ∈ (N.evm.program block).trail F.database.answer, F.Supplies (N.paths F.state) w read
  writes : ∀ trie result state, revealWitness E (N.paths F.state).root w = .ok trie →
    executeOn E F.database block = .ok (result, state) →
    Complete N.reveals F.state trie (E.evm.fromBundleState state)

/-! ## The states along the chain -/

variable {N : FullNode E} {W : World} {T T' : FullState E.codec} {block : Block}

/-- the state after a block is rooted if the state before it was -/
theorem Applied.rooted {L : SparseTrieLaws E} {state : HashedPostState} (h : Applied L T state T')
    (hcodec : CodecLaws E) (hT : Rooted L T) (hpost : PostState L T state) : Rooted L T' := by
  have hleaf : ∀ a, accountLeaves T' a = leafAfter L T state a := fun a => congrFun h.accounts a
  constructor
  · intro a x hx
    have hx' := hleaf a
    simp only [accountLeaves, hx, leafAfter, Option.map_some] at hx'
    rw [h.slots a]
    cases ha : state.accounts.get a with
    | none =>
      simp only [ha] at hx'
      obtain ⟨y, -, hy⟩ := Option.map_eq_some_iff.1 hx'.symm
      exact (hcodec.account _ _ hy).symm
    | some entry =>
      cases entry with
      | none =>
        simp only [ha] at hx'
        cases hx'
      | some account =>
        simp only [ha] at hx'
        split_ifs at hx'
        rw [hcodec.account _ _ (Option.some.inj hx'), hcodec.into]
  · intro a hnone
    have hnone' := hleaf a
    simp only [accountLeaves, hnone, leafAfter, Option.map_none] at hnone'
    rw [h.slots a]
    cases ha : state.accounts.get a with
    | none =>
      simp only [ha] at hnone'
      have hstorage : state.storages.get a = none := by
        by_contra hne
        exact hpost.paired a hne ha
      simp only [slotAfter, hstorage, Option.elim_none]
      exact hT.absent a (Option.map_eq_none_iff.1 hnone'.symm)
    | some entry =>
      cases entry with
      | none => exact hpost.cleared a ha
      | some account =>
        simp only [ha] at hnone'
        split_ifs at hnone' with hempty
        exact hempty.2

theorem judge_ok {F : FullStore E} {parent : SealedHeader} (h : N.judge F parent block = .ok ()) :
    EngineTree.validateBlock E block = .ok () ∧
      E.consensus.validateHeaderAgainstParent block.toSealedHeader parent = .ok () ∧ N.verdict F block = .ok () := by
  simp only [judge, Except.mapError, bind, Except.bind] at h
  cases hv : EngineTree.validateBlock E block with
  | error error => simp only [hv, reduceCtorEq] at h
  | ok _ =>
    cases ha : E.consensus.validateHeaderAgainstParent block.toSealedHeader parent with
    | error error => simp only [hv, ha, reduceCtorEq] at h
    | ok _ =>
      simp only [hv, ha] at h
      exact ⟨rfl, rfl, h⟩

theorem verdict_ok {F : FullStore E} {result : E.evm.BlockExecutionResult} {state : E.evm.BundleState}
    (hexec : executeOn E F.database block = .ok (result, state)) (h : N.verdict F block = .ok ()) :
    rootAfter N.tries F.state (E.evm.fromBundleState state) = block.stateRoot := by
  by_contra hne
  simp only [verdict, hexec, Except.mapError, bind, Except.bind] at h
  cases hpost : E.consensus.validateBlockPostExecution block result with
  | error error => simp only [hpost, reduceCtorEq] at h
  | ok _ => simp only [hpost, if_pos hne, reduceCtorEq] at h

/-- the state after a block is rooted, and the block's state root is its root -/
theorem Reaches.stateRoot (h : N.Reaches W block T) (hlaw : N.Lawful W) :
    Rooted N.tries T ∧ block.stateRoot = N.tries.rootOf (accountLeaves T) := by
  induction h with
  | genesis => exact ⟨hlaw.rooted, hlaw.root⟩
  | @child parent block T T' hparent haccepts ih =>
    obtain ⟨result, state, hexec, happlied⟩ := haccepts.applied
    have hpost := (hlaw.states parent T hparent).post (N.store W parent.hash T) block result state rfl hexec
    refine ⟨happlied.rooted hlaw.codec ih.1 hpost, ?_⟩
    rw [happlied.accounts]
    exact (verdict_ok hexec (judge_ok haccepts.judge).2.2).symm

theorem Reaches.known (h : N.Reaches W block T) : W.Knows block.toSealedHeader := by
  cases h with
  | genesis => exact W.genesis_known
  | child _ haccepts => exact haccepts.known

/-! ## A full node that counts blocks -/

section Tally

open StateRoot (spell_beBytes spell_foldl pairTrie get_set_update get_del_update get_single)

/-- an account is its storage root and its nonce -/
def tallyCodec : StateCodec :=
  { smallCodec with
    decodeTrieAccount := fun bytes => some ⟨(spell (bytes.drop 32)).toNat, 0, spell (bytes.take 32), 0⟩
    encodeTrieAccount := fun account => beBytes account.storageRoot ++ beBytes (BitVec.ofNat 256 account.nonce)
    decodeU256 := fun bytes => some (spell bytes)
    encodeU256 := beBytes }

/-- the root of a trie with one leaf, at 0, is the number that its node spells -/
def tallyRoot (m : B256 → Option Bytes) : B256 := (m 0).elim 0 fun leaf => spell (1 :: leaf)

/-- the account at 0 with this nonce -/
def tallyAccount (nonce : B256) : TrieAccount := ⟨nonce.toNat, 0, 0, 0⟩

/-- the leaf of the account; it is the whole trie -/
def tallyNode (nonce : B256) : Bytes := 1 :: tallyCodec.encodeTrieAccount (tallyAccount nonce)

/-- a trie is revealed in full, from its one node -/
def tallyTrie : SparseTrie :=
  { pairTrie with
    revealWitness := fun _ root nodes =>
      if nodes.get root = some (tallyNode root) then
        .ok ((∅ : FMap B256 Bytes).set 0 (tallyCodec.encodeTrieAccount (tallyAccount root)), ∅)
      else .error "missing node"
    root := fun trie => .ok (tallyRoot trie.1.get)
    storageRoot := fun trie => tallyRoot trie.get }

/-- a block raises the nonce of the account at 0, up to the greatest one -/
def tallyEvm : Evm where
  Strategy := Except ProviderError (Option AccountInfo)
  BlockExecutionResult := Unit
  BundleState := ℕ
  executorForBlock db _ := db.basic 0
  applyPreExecutionChanges
    | .ok (some account) =>
      if account.nonce + 1 < 2 ^ 256 then .ok (.ok (some account)) else .error (.validation "nonce")
    | .ok none => .error (.validation "no account")
    | .error _ => .error (.internal "database")
  executeTransaction strategy _ := .ok strategy
  applyPostExecutionChanges strategy := .ok ((), strategy)
  takeBundle
    | .ok (some account) => account.nonce + 1
    | _ => 0
  fromBundleState nonce := ⟨(∅ : FMap B256 (Option Account)).set 0 (some ⟨nonce, 0, none⟩), ∅⟩

def tallyEnv : Env :=
  { smallEnv with codec := tallyCodec, trie := tallyTrie, evm := tallyEvm, consensus := smallConsensus }


theorem tallyCodec_laws : CodecLaws tallyEnv where
  slot v := congrArg some (spell_beBytes v)
  account x y h := by
    have hs := congrArg (fun bytes => spell (bytes.take 32)) h
    have hlen : ∀ z : B256, (beBytes z).length = 32 := fun z => by simp [beBytes]
    change spell ((beBytes x.storageRoot ++ _).take 32) = spell ((beBytes y.storageRoot ++ _).take 32) at hs
    rw [List.take_left' (hlen _), List.take_left' (hlen _), spell_beBytes, spell_beBytes] at hs
    exact hs
  into account root := rfl
  default_empty := rfl

theorem spell_tallyNode (nonce : B256) : spell (tallyNode nonce) = nonce := by
  have hnonce : BitVec.ofNat 256 (tallyAccount nonce).nonce = nonce := by simp [tallyAccount]
  have hlt := nonce.isLt
  simp only [spell, tallyNode, tallyCodec, hnonce, beBytes, List.foldl_cons, List.foldl_append]
  rw [spell_foldl, spell_foldl]
  apply BitVec.eq_of_toNat_eq
  rw [BitVec.toNat_ofNat, show 256 ^ (256 / 8) = 2 ^ 256 from by norm_num, Nat.mul_add_mod', Nat.mod_mod,
    Nat.mod_eq_of_lt hlt]

theorem tallyAccount_codec (nonce : B256) :
    tallyCodec.decodeTrieAccount (tallyCodec.encodeTrieAccount (tallyAccount nonce)) = some (tallyAccount nonce) := by
  have hnonce : BitVec.ofNat 256 (tallyAccount nonce).nonce = nonce := by simp [tallyAccount]
  have hlen : ∀ z : B256, (beBytes z).length = 32 := fun z => by simp [beBytes]
  simp only [tallyCodec, hnonce]
  rw [List.drop_left' (hlen _), List.take_left' (hlen _), spell_beBytes, spell_beBytes]
  rfl

def tallyLaws : SparseTrieLaws tallyEnv where
  rootOf := tallyRoot
  Storage trie m := FMap.get trie = m
  State trie m := FMap.get trie.1 = m
  rootOf_empty := rfl
  revealedEmpty := by funext s; exact FMap.get_empty s
  wipe t t' m _ h := by cases h; funext s; exact FMap.get_empty s
  updateLeaf t t' m k v ht h := by cases h; cases ht; exact get_set_update t k v
  removeLeaf t t' m k ht h := by cases h; cases ht; exact get_del_update t k
  storageRoot t m ht := by cases ht; rfl
  take t a := rfl
  take_mut t a b := FMap.get_del t.2 a b
  take_state t a m ht := ht
  insert_mut t a s b := FMap.get_set t.2 a b s
  insert_state t a s m ht := ht
  getAccountValue t m a v ht h := by cases ht; exact h
  update t t' m a v ht h := by
    cases h; cases ht
    exact ⟨get_set_update t.1 a v, fun hn => hn, fun _ => rfl⟩
  remove t t' m a ht h := by
    cases h; cases ht
    exact ⟨get_del_update t.1 a, fun hn => hn, fun _ => rfl⟩
  root t m r ht h := by cases h; cases ht; rfl

def tallyRevealLaws : RevealLaws tallyEnv where
  StorageOpen _ _ := True
  StateOpen _ _ := True
  revealedEmpty _ := trivial
  wipe _ _ _ := ⟨_, rfl, trivial⟩
  updateLeaf _ _ _ _ _ _ := ⟨_, rfl, trivial⟩
  removeLeaf _ _ _ _ _ := ⟨_, rfl, trivial⟩
  take _ _ _ _ := trivial
  insert _ _ _ _ _ := trivial
  update _ _ _ _ _ _ := ⟨_, rfl, trivial⟩
  remove _ _ _ _ _ := ⟨_, rfl, trivial⟩
  root _ _ _ := ⟨_, rfl⟩

/-- what a block does with the account that it reads -/
def tallyResult : Except ProviderError (Option AccountInfo) → Except BlockExecutionError (Unit × ℕ)
  | .ok (some account) =>
    if account.nonce + 1 < 2 ^ 256 then .ok ((), account.nonce + 1) else .error (.validation "nonce")
  | .ok none => .error (.validation "no account")
  | .error _ => .error (.internal "database")

theorem executeOn_tally (db : Database AccountInfo) (block : Block) :
    executeOn tallyEnv db block = tallyResult (db.basic 0) := by
  have hfold : ∀ (l : List Bytes) strategy, l.foldlM tallyEvm.executeTransaction strategy = .ok strategy := by
    intro l strategy
    induction l with
    | nil => rfl
    | cons transaction l ih => exact ih
  change (do
    let strategy ← tallyEvm.applyPreExecutionChanges (db.basic 0)
    let strategy ← block.body.transactions.foldlM tallyEvm.executeTransaction strategy
    let (result, strategy) ← tallyEvm.applyPostExecutionChanges strategy
    return (result, tallyEvm.takeBundle strategy)) = _
  simp only [hfold]
  rcases db.basic 0 with error | _ | account
  · rfl
  · rfl
  · simp only [tallyEvm, tallyResult]
    split_ifs <;> rfl

def tallyEvmLaws : EvmLaws tallyEnv where
  program _ := .ask (.basic 0) fun answer => .done (tallyResult answer)
  execute db block := executeOn_tally db block
  fails db block read error hread herror := by
    simp only [Reading.Program.trail, List.mem_singleton] at hread
    subst hread
    rw [executeOn_tally, show db.basic 0 = .error error from herror]
    exact ⟨_, rfl⟩
  codes db block codeHash h := by
    simp only [Reading.Program.trail, List.mem_singleton, reduceCtorEq] at h
  recent db block number h := by
    simp only [Reading.Program.trail, List.mem_singleton, reduceCtorEq] at h

/-- the state after so many blocks -/
def tallyState (nonce : B256) : FullState tallyEnv.codec where
  account a := if a = 0 then some (tallyAccount nonce) else none
  slot _ _ := 0
  account_codec a x h := by
    split_ifs at h
    rw [← Option.some.inj h]
    exact tallyAccount_codec nonce
  slot_codec a s := congrArg some (spell_beBytes 0)

def tally : FullNode tallyEnv where
  tries := tallyLaws
  reveals := tallyRevealLaws
  evm := tallyEvmLaws
  paths T :=
    let root := tallyRoot (accountLeaves T)
    ⟨root, fun a => if a = 0 then [tallyNode root] else [], fun _ _ => []⟩
  code _ := none
  genesis := tallyState 1

theorem tallyState_leaves (nonce : B256) (a : B256) : accountLeaves (tallyState nonce) a =
    if a = 0 then some (tallyCodec.encodeTrieAccount (tallyAccount nonce)) else none := by
  simp only [accountLeaves, tallyState]
  split_ifs <;> rfl

theorem tallyState_root (nonce : B256) : tallyRoot (accountLeaves (tallyState nonce)) = nonce := by
  rw [tallyRoot, tallyState_leaves, if_pos rfl]
  exact spell_tallyNode nonce

theorem tallyState_paths (nonce : B256) : tally.paths (tallyState nonce) =
    ⟨nonce, fun a => if a = 0 then [tallyNode nonce] else [], fun _ _ => []⟩ := by
  simp only [tally, tallyState_root]

/-- what a reveal at the root of the state answers -/
theorem tally_reveal {nonce : B256} {w : ExecutionWitness} {trie : tallyEnv.trie.StateTrie}
    (h : revealWitness tallyEnv nonce w = .ok trie) :
    (witnessNodes tallyCodec w).get nonce = some (tallyNode nonce) ∧
      trie = ((∅ : FMap B256 Bytes).set 0 (tallyCodec.encodeTrieAccount (tallyAccount nonce)), ∅) := by
  simp only [revealWitness, tallyEnv, tallyTrie] at h
  by_cases hnode : (witnessNodes tallyCodec w).get nonce = some (tallyNode nonce)
  · rw [if_pos hnode] at h
    exact ⟨hnode, (Except.ok.inj h).symm⟩
  · rw [if_neg hnode] at h
    cases h

theorem tally_revealLaw (nonce : B256) : RevealLaw tallyEnv (tallyState nonce) (tally.paths (tallyState nonce)) where
  account w trie hreveal a v := by
    rw [tallyState_paths] at hreveal ⊢
    obtain ⟨hnode, rfl⟩ := tally_reveal hreveal
    have hsupplied : Supplied tallyCodec w [tallyNode nonce] := by
      intro node hmem
      rw [List.mem_singleton.1 hmem]
      exact (congrArg _ (spell_tallyNode nonce)).trans hnode
    have hvalue : tallyEnv.trie.getAccountValue
        ((∅ : FMap B256 Bytes).set 0 (tallyCodec.encodeTrieAccount (tallyAccount nonce)), ∅) a =
          accountLeaves (tallyState nonce) a := by
      rw [tallyState_leaves]
      exact get_single 0 a _
    have hpath : Supplied tallyCodec w (if a = 0 then [tallyNode nonce] else []) := by
      split_ifs
      · exact hsupplied
      · exact fun node hmem => absurd hmem List.not_mem_nil
    rw [hvalue, accountLeaves, Option.map_eq_some_iff]
    constructor
    · rintro ⟨x, hx, rfl⟩
      exact ⟨⟨x, hx, rfl⟩, hpath⟩
    · rintro ⟨⟨x, hx, rfl⟩, -⟩
      exact ⟨x, hx, rfl⟩
  slot w trie hreveal a s v := by
    rw [tallyState_paths] at hreveal ⊢
    obtain ⟨-, rfl⟩ := tally_reveal hreveal
    have hnone : tallyTrie.getStorageSlotValue
        ((∅ : FMap B256 Bytes).set 0 (tallyCodec.encodeTrieAccount (tallyAccount nonce)), ∅) a s = none := rfl
    constructor
    · intro h
      cases hnone.symm.trans h
    · rintro ⟨⟨hne, -⟩, -⟩
      exact absurd rfl hne

/-- the post state of an execution that succeeds -/
def tallyUpdate (nonce : ℕ) : HashedPostState := tallyEvm.fromBundleState nonce

theorem tallyUpdate_accounts (nonce : ℕ) (a : B256) :
    (tallyUpdate nonce).accounts.get a = if a = 0 then some (some ⟨nonce, 0, none⟩) else none :=
  get_single 0 a _

theorem tally_executed {nonce : B256} {F : FullStore tallyEnv} {block : Block} {result : Unit} {state : ℕ}
    (hF : F.state = tallyState nonce) (h : executeOn tallyEnv F.database block = .ok (result, state)) :
    nonce.toNat + 1 < 2 ^ 256 ∧ state = nonce.toNat + 1 := by
  have hread : F.database.basic 0 = .ok (some ⟨0, nonce.toNat, 0⟩) := by
    simp only [FullStore.database, FullStore.account, hF]
    rfl
  rw [executeOn_tally, hread] at h
  simp only [tallyResult] at h
  split_ifs at h with hlt
  cases h
  exact ⟨hlt, rfl⟩

theorem tally_applied {nonce : B256} (hlt : nonce.toNat + 1 < 2 ^ 256) :
    Applied tallyLaws (tallyState nonce) (tallyUpdate (nonce.toNat + 1)) (tallyState (nonce + 1)) := by
  have hnext : (nonce + 1).toNat = nonce.toNat + 1 := by
    rw [BitVec.toNat_add, show (1 : B256).toNat = 1 from rfl, Nat.mod_eq_of_lt hlt]
  refine ⟨?_, fun a => rfl⟩
  funext a
  rw [tallyState_leaves]
  simp only [leafAfter, tallyUpdate_accounts]
  by_cases ha : a = 0
  · rw [if_pos ha, if_pos ha]
    have hfull : ¬ tallyEnv.isEmpty ⟨nonce.toNat + 1, 0, none⟩ = true := by simp [tallyEnv, smallEnv]
    simp only
    rw [if_neg fun h => hfull h.1, tallyAccount, hnext]
    rfl
  · rw [if_neg ha, if_neg ha]
    exact (Option.map_eq_none_iff.2 (if_neg ha)).symm

theorem tally_postState {nonce : B256} (hlt : nonce.toNat + 1 < 2 ^ 256) :
    PostState tallyLaws (tallyState nonce) (tallyUpdate (nonce.toNat + 1)) where
  next := ⟨_, tally_applied hlt⟩
  paired a h := absurd (FMap.get_empty a) h
  cleared a h := by
    rw [tallyUpdate_accounts] at h
    split_ifs at h
    cases h
  emptyRoot a _ _ := rfl

theorem tally_lawfulOn (nonce : B256) : tally.LawfulOn (tallyState nonce) where
  root := rfl
  law := tally_revealLaw nonce
  leaf a x h := by
    rw [tallyState_paths]
    change (if a = 0 then _ else _) = some x at h
    split_ifs at h with ha
    rw [← Option.some.inj h]
    exact ⟨tallyNode nonce, by simp [ha], rfl⟩
  reveals w trie hreveal := by
    rw [tallyState_paths] at hreveal
    obtain ⟨-, rfl⟩ := tally_reveal hreveal
    refine ⟨?_, fun a s h => ?_⟩
    · funext a
      rw [tallyState_leaves]
      exact get_single 0 a _
    · exact absurd h (by simp [tallyEnv, tallyTrie, pairTrie, FMap.get_empty])
  post F block result state hF hexec := by
    obtain ⟨hlt, rfl⟩ := tally_executed hF hexec
    exact tally_postState hlt

/-- block `n` of a chain on which every block raises the nonce: its hash is `n + 1` -/
def tallyBlock (n : ℕ) : Block :=
  ⟨⟨⟨BitVec.ofNat 256 n, n, BitVec.ofNat 256 (n + 1), 0, []⟩, BitVec.ofNat 256 (n + 1)⟩, ⟨[], []⟩⟩

def tallyWorld : World where
  header h := if h = 0 then none else some (tallyBlock (h.toNat - 1)).toSealedHeader
  genesis := tallyBlock 0
  hash_eq := by
    intro h x hx
    split_ifs at hx with hzero
    have hpos : 0 < h.toNat := Nat.pos_of_ne_zero fun heq => hzero (BitVec.eq_of_toNat_eq heq)
    rw [← Option.some.inj hx]
    show BitVec.ofNat 256 (h.toNat - 1 + 1) = h
    rw [Nat.sub_add_cancel hpos, BitVec.ofNat_toNat, BitVec.setWidth_eq]
  genesis_known := by decide
  genesis_number := rfl
  genesis_root := by decide

/-- a state is decided by the leaves of its accounts, if it has no storage -/
theorem tallyState_unique {nonce : B256} {T : FullState tallyEnv.codec}
    (haccounts : accountLeaves T = accountLeaves (tallyState nonce)) (hslots : ∀ a, T.slot a = fun _ => 0) :
    T = tallyState nonce := by
  have haccount : T.account = (tallyState nonce).account := by
    funext a
    have hleaf := congrFun haccounts a
    simp only [accountLeaves] at hleaf
    cases hx : T.account a with
    | none =>
      rw [hx] at hleaf
      exact (Option.map_eq_none_iff.1 hleaf.symm).symm
    | some x =>
      rw [hx] at hleaf
      obtain ⟨y, hy, hencode⟩ := Option.map_eq_some_iff.1 hleaf.symm
      have hdecode := congrArg tallyEnv.codec.decodeTrieAccount hencode
      rw [T.account_codec a x hx, (tallyState nonce).account_codec a y hy] at hdecode
      rw [hy, hdecode]
  obtain ⟨account, slot, _, _⟩ := T
  cases haccount
  cases (funext hslots : slot = fun _ _ => 0)
  rfl

theorem tally_reaches {block : Block} {T : FullState tallyEnv.codec} (h : tally.Reaches tallyWorld block T) :
    ∃ nonce, T = tallyState nonce := by
  induction h with
  | genesis => exact ⟨1, rfl⟩
  | @child parent block T T' hparent haccepts ih =>
    obtain ⟨nonce, rfl⟩ := ih
    obtain ⟨result, state, hexec, happlied⟩ := haccepts.applied
    obtain ⟨hlt, rfl⟩ := tally_executed (F := tally.store tallyWorld parent.hash (tallyState nonce)) rfl hexec
    refine ⟨nonce + 1, tallyState_unique ?_ ?_⟩
    · rw [happlied.accounts, (tally_applied hlt).accounts]
      rfl
    · intro a
      rw [happlied.slots]
      rfl

theorem tallyState_rooted (nonce : B256) : Rooted tallyLaws (tallyState nonce) where
  root a x h := by
    change (if a = 0 then some (tallyAccount nonce) else none) = some x at h
    split_ifs at h
    rw [← Option.some.inj h]
    rfl
  absent a h := rfl

theorem tally_lawful : tally.Lawful tallyWorld where
  codec := tallyCodec_laws
  rooted := tallyState_rooted 1
  root := (tallyState_root 1).symm
  states block T h := by
    obtain ⟨nonce, rfl⟩ := tally_reaches h
    exact tally_lawfulOn nonce

/-- the witness of a block on the state with this nonce -/
def tallyWitness (nonce : B256) : ExecutionWitness := ⟨[tallyNode nonce], 65⟩

theorem tally_trail (F : FullStore tallyEnv) (block : Block) :
    (tally.evm.program block).trail F.database.answer = [.basic 0] := rfl

theorem tally_suffices (nonce : B256) (F : FullStore tallyEnv) (hF : F.state = tallyState nonce) (block : Block) :
    tally.Suffices F block (tallyWitness nonce) := by
  have hnode : (witnessNodes tallyCodec (tallyWitness nonce)).get nonce = some (tallyNode nonce) :=
    (get_single (spell (tallyNode nonce)) nonce _).trans (if_pos (spell_tallyNode nonce).symm)
  constructor
  · rw [hF, tallyState_paths]
    exact ⟨_, if_pos hnode⟩
  · intro read hread
    rw [tally_trail, List.mem_singleton] at hread
    rw [hread, hF, tallyState_paths]
    refine Or.inr fun node hmem => ?_
    rw [List.mem_singleton.1 hmem]
    exact (congrArg _ (spell_tallyNode nonce)).trans hnode
  · intro trie result state hreveal hexec
    refine ⟨trivial, fun _ _ _ _ _ => trivial, fun a storage hstorage _ => ?_⟩
    exact absurd ((FMap.get_empty a).symm.trans hstorage) (by simp)

end Tally

end FullNode

/-! ## The stateless judgement -/

namespace EngineTree

open FullNode (PostState LawfulOn Suffices)

variable {E : Env} {N : FullNode E} {F : FullStore E} {t : EngineTree E} {block : Block} {w : ExecutionWitness}

/-- the root that is computed from a witness that suffices -/
theorem calculateStateRoot_suffices (hdefault : E.isEmpty ⟨0, 0, none⟩ = true) (hT : Rooted N.tries F.state)
    (hlaw : N.LawfulOn F.state) (hsuffices : N.Suffices F block w) {trie : E.trie.StateTrie}
    (hreveal : revealWitness E (N.paths F.state).root w = .ok trie) {result : E.evm.BlockExecutionResult}
    {state : E.evm.BundleState} (hexec : executeOn E F.database block = .ok (result, state))
    (sched : StateRoot.Schedule) :
    calculateStateRoot E sched trie (E.evm.fromBundleState state) =
      .ok (rootAfter N.tries F.state (E.evm.fromBundleState state)) := by
  have hpost := hlaw.post F block result state rfl hexec
  have hreveals := hlaw.reveals w trie hreveal
  have hcomplete := hsuffices.writes trie result state hreveal hexec
  obtain ⟨r, hr⟩ := StateRoot.calculateStateRoot_ok hT hreveals hcomplete sched
  have hleaves : leafComputed N.tries F.state trie (E.evm.fromBundleState state) =
      leafAfter N.tries F.state (E.evm.fromBundleState state) := by
    funext a
    rw [StateRoot.leafComputed_complete hdefault hT hpost.paired hcomplete hpost.emptyRoot,
      StateRoot.leafUpdated_cleared hpost.cleared]
  rw [hr, StateRoot.calculateStateRoot_eq hT hreveals hr, hleaves]
  rfl

/-- **The stateless judgement.** With a witness that suffices it is the full node's, or a code or a block hash that the
provider lacks ends the execution in an error. -/
theorem executeBlock_verdict_or (hdefault : E.isEmpty ⟨0, 0, none⟩ = true) (hT : Rooted N.tries F.state)
    (hlaw : N.LawfulOn F.state) (hsuffices : N.Suffices F block w) {parent : SealedHeader}
    (hparent : parent.stateRoot = N.tries.rootOf (accountLeaves F.state))
    (hagrees : F.Agrees t.provider block) (sched : StateRoot.Schedule) :
    t.executeBlock sched block parent w = N.verdict F block ∨
      (∃ read ∈ (N.evm.program block).trail F.database.answer, t.provider.Lacks block.parentNumHash read) ∧
        ∃ error, t.executeBlock sched block parent w = .error (.execution error) := by
  obtain ⟨trie, hreveal⟩ := hsuffices.revealed
  have hroot : revealWitness E parent.stateRoot w = .ok trie := by rw [hparent, ← hlaw.root, hreveal]
  have hrevealed : revealWitness E (N.paths F.state).root w =
      .ok (⟨t.provider, block.parentNumHash, trie⟩ : WitnessDatabase E).trie := hreveal
  have hcases := WitnessDatabase.executeOn_supplied N.evm hlaw.law hrevealed rfl hagrees hsuffices.reads
  simp only [executeBlock, hroot, execute_eq_executeOn, FullNode.verdict, Except.mapError, bind, Except.bind]
  rcases hcases with hsame | ⟨read, hread, -, hlacks, error, herror⟩
  · refine Or.inl ?_
    simp only [hsame]
    cases hexec : executeOn E F.database block with
    | error error => rfl
    | ok executed =>
      obtain ⟨result, state⟩ := executed
      simp only [calculateStateRoot_suffices hdefault hT hlaw hsuffices hreveal hexec sched]
  · refine Or.inr ⟨⟨read, hread, hlacks⟩, error, ?_⟩
    simp only [herror]

/-- the checks of a new block whose parent is stored, in order -/
theorem insertBlock_checks_eq (sched : StateRoot.Schedule) {parent : SealedHeader} (hnew : ¬ t.Stored block.hash)
    (hparent : t.provider.sealedHeader block.parentHash = some parent) (hhash : parent.hash = block.parentHash)
    (w : ExecutionWitness) :
    (t.insertBlock sched block (some w)).1 = (do
      (validateBlock E block).mapError .consensus
      (E.consensus.validateHeaderAgainstParent block.toSealedHeader parent).mapError .consensus
      t.executeBlock sched block parent w
      return .inserted .valid) := by
  have hs : ¬ (t.provider.sealedHeader block.hash).isSome = true := fun h => hnew (ChainState.sealedHeader_isSome.1 h)
  have hsame : { parent with hash := block.parentHash } = parent := by rw [← hhash]
  simp only [insertBlock, tryInsertBlock, if_neg hs, hparent, hsame, Except.mapError, bind, Except.bind]
  cases validateBlock E block with
  | error error => rfl
  | ok _ =>
    cases E.consensus.validateHeaderAgainstParent block.toSealedHeader parent with
    | error error => rfl
    | ok _ =>
      cases t.executeBlock sched block parent w with
      | error kind => rfl
      | ok _ => rfl

/-- **An insertion judges as the full node does**, or the execution asks for a code or a block hash that the provider
lacks and ends in an error. -/
theorem insertBlock_judge_or (hdefault : E.isEmpty ⟨0, 0, none⟩ = true) (hT : Rooted N.tries F.state)
    (hlaw : N.LawfulOn F.state) {parent : SealedHeader} (hnew : ¬ t.Stored block.hash)
    (hparent : t.provider.sealedHeader block.parentHash = some parent) (hhash : parent.hash = block.parentHash)
    (hroot : parent.stateRoot = N.tries.rootOf (accountLeaves F.state))
    (hmeets : validateBlock E block = .ok () →
      E.consensus.validateHeaderAgainstParent block.toSealedHeader parent = .ok () →
      N.Suffices F block w ∧ F.Agrees t.provider block) (sched : StateRoot.Schedule) :
    (t.insertBlock sched block (some w)).1 = (N.judge F parent block).map (fun _ => .inserted .valid) ∨
      (∃ read ∈ (N.evm.program block).trail F.database.answer, t.provider.Lacks block.parentNumHash read) ∧
        ∃ error, (t.insertBlock sched block (some w)).1 = .error (.execution error) := by
  rw [insertBlock_checks_eq sched hnew hparent hhash]
  simp only [FullNode.judge, Except.mapError, bind, Except.bind, Except.map]
  cases hv : validateBlock E block with
  | error error => exact Or.inl rfl
  | ok _ =>
    cases ha : E.consensus.validateHeaderAgainstParent block.toSealedHeader parent with
    | error error => exact Or.inl rfl
    | ok _ =>
      obtain ⟨hsuffices, hagrees⟩ := hmeets hv ha
      rcases executeBlock_verdict_or hdefault hT hlaw hsuffices hroot hagrees sched with
        hsame | ⟨hlacks, error, herror⟩
      · simp only [hsame]
        cases N.verdict F block with
        | error kind => exact Or.inl rfl
        | ok _ => exact Or.inl rfl
      · simp only [herror]
        exact Or.inr ⟨hlacks, error, rfl⟩

/-- **The stateless node judges as the full node does.** A new block whose parent is stored comes with a witness that
suffices, and the provider lacks no code and no block hash that the full execution asks for. The insertion ends as the
full node judges the block, with the same error, whatever the schedule, and the block is stored if the full node accepts
it. -/
theorem insertBlock_judge (hdefault : E.isEmpty ⟨0, 0, none⟩ = true) (hT : Rooted N.tries F.state)
    (hlaw : N.LawfulOn F.state) {parent : SealedHeader} (hnew : ¬ t.Stored block.hash)
    (hparent : t.provider.sealedHeader block.parentHash = some parent) (hhash : parent.hash = block.parentHash)
    (hroot : parent.stateRoot = N.tries.rootOf (accountLeaves F.state)) (hsuffices : N.Suffices F block w)
    (hagrees : F.Agrees t.provider block)
    (hhas : ∀ read ∈ (N.evm.program block).trail F.database.answer, ¬ t.provider.Lacks block.parentNumHash read)
    (sched : StateRoot.Schedule) :
    (t.insertBlock sched block (some w)).1 = (N.judge F parent block).map (fun _ => .inserted .valid) ∧
      ∀ hash, (t.insertBlock sched block (some w)).2.Stored hash ↔
        t.Stored hash ∨ (hash = block.hash ∧ N.judge F parent block = .ok ()) := by
  have hresult : (t.insertBlock sched block (some w)).1 = (N.judge F parent block).map (fun _ => .inserted .valid) := by
    rcases insertBlock_judge_or hdefault hT hlaw hnew hparent hhash hroot (fun _ _ => ⟨hsuffices, hagrees⟩) sched with
      hsame | ⟨⟨read, hread, hlacks⟩, -⟩
    · exact hsame
    · exact absurd hlacks (hhas read hread)
  refine ⟨hresult, fun hash => ?_⟩
  have hi := insertBlock_inserts t sched block (some w)
  rw [hresult] at hi
  generalize (t.insertBlock sched block (some w)).2 = t' at hi ⊢
  cases hj : N.judge F parent block with
  | error kind =>
    rw [hj] at hi
    cases hi with
    | refused =>
      simp only [reduceCtorEq, and_false, or_false]
      exact Iff.rfl
  | ok _ =>
    rw [hj] at hi
    cases hi with
    | valid w' _ _ _ event =>
      simp only [and_true]
      rw [or_comm]
      exact ChainState.stored_insertBlock

/-- the second block of a chain that counts its blocks -/
theorem insertBlock_judge_tally :
    ((launch FullNode.tallyEnv ⟨∅, none, none⟩ (FullNode.tallyBlock 0)).insertBlock StateRoot.sortedSchedule
        (FullNode.tallyBlock 1) (some (FullNode.tallyWitness 1))).1 =
      (FullNode.tally.judge (FullNode.tally.store FullNode.tallyWorld (FullNode.tallyBlock 0).hash
        (FullNode.tallyState 1)) (FullNode.tallyBlock 0).toSealedHeader (FullNode.tallyBlock 1)).map
          fun _ => .inserted .valid := by
  have hagrees : (FullNode.tally.store FullNode.tallyWorld (FullNode.tallyBlock 0).hash (FullNode.tallyState 1)).Agrees
      (launch FullNode.tallyEnv ⟨∅, none, none⟩ (FullNode.tallyBlock 0)).provider (FullNode.tallyBlock 1) := by
    refine ⟨fun codeHash bytecode h => ?_, fun number hash _ hlt h => ?_⟩
    · cases (FMap.get_empty codeHash).symm.trans (Except.ok.inj h)
    · obtain ⟨hanc, hnum⟩ := (Chain.coherent_launch FullNode.tallyWorld).toSound.blockHash_sound (FullNode.tallyBlock 0)
        (by decide +kernel) number hash (Nat.zero_le _) (Nat.lt_succ_iff.1 hlt) h
      simp only [FullNode.store]
      exact World.ancestorHash_eq hanc hnum
  refine (insertBlock_judge rfl (FullNode.tallyState_rooted 1) (FullNode.tally_lawfulOn 1) ?_ ?_ rfl
    (FullNode.tallyState_root 1).symm (FullNode.tally_suffices 1 _ rfl _) hagrees ?_ StateRoot.sortedSchedule).1
  · rintro ⟨b, hb⟩
    have hnone : (launch FullNode.tallyEnv ⟨∅, none, none⟩ (FullNode.tallyBlock 0)).provider.chainState.blocksByHash.get
        (FullNode.tallyBlock 1).hash = none := by decide +kernel
    cases hnone.symm.trans hb
  · decide +kernel
  · intro read hread
    rw [FullNode.tally_trail, List.mem_singleton] at hread
    rw [hread]
    exact id

end EngineTree

end Ress
