/-
Reads of the witness database against the full state.

`FullState` is a state of accounts and slots by hashed key. A witness is any list of nodes; `RevealLaw` is what is
assumed of the sparse trie: a value is answered exactly when it is in the state and every node on the path to its leaf
was supplied. Both a path that is cut off and a path that proves absence are answered with `none`.

`basic` and `storage` take `none` for absence. `witness_reads_sound_iff`: so a read is right, or an error, exactly when
the state has nothing there or the whole path was supplied. (`code_by_hash` and `block_hash` answer an error for what
they do not have.)
-/
import Ress.Evm.WitnessDatabase

namespace Ress

/-- accounts by hashed address and slots by hashed address and slot; an absent slot is zero -/
structure FullState (C : StateCodec) where
  account : B256 → Option TrieAccount
  slot : B256 → B256 → U256
  account_codec : ∀ a x, account a = some x → C.decodeTrieAccount (C.encodeTrieAccount x) = some x
  slot_codec : ∀ a s, C.decodeU256 (C.encodeU256 (slot a s)) = some (slot a s)

/-- the encoded nodes on the paths from the root of a state to its leaves -/
structure Paths where
  root : B256
  account : B256 → List Bytes
  slot : B256 → B256 → List Bytes

/-- every node of a path was supplied -/
def Supplied (C : StateCodec) (witness : ExecutionWitness) (path : List Bytes) : Prop :=
  ∀ node ∈ path, (witnessNodes C witness).get (C.keccak256 node) = some node

/-- what is assumed of `reveal_witness`, `get_account_value` and `get_storage_slot_value`: a value is answered exactly
when its leaf has been revealed -/
structure RevealLaw (E : Env) (T : FullState E.codec) (P : Paths) : Prop where
  account : ∀ w trie, revealWitness E P.root w = .ok trie → ∀ a v, E.trie.getAccountValue trie a = some v ↔
    (∃ x, T.account a = some x ∧ v = E.codec.encodeTrieAccount x) ∧ Supplied E.codec w (P.account a)
  slot : ∀ w trie, revealWitness E P.root w = .ok trie → ∀ a s v, E.trie.getStorageSlotValue trie a s = some v ↔
    (T.slot a s ≠ 0 ∧ v = E.codec.encodeU256 (T.slot a s)) ∧ Supplied E.codec w (P.slot a s)

namespace WitnessDatabase

variable {E : Env}

/-- `basic` answers the account of the state or an error -/
def BasicSound (T : FullState E.codec) (db : WitnessDatabase E) (address : Address) : Prop :=
  ∀ r, db.basic address = .ok r →
    r = (T.account (E.codec.keccak256 (beBytes address))).map fun x => ⟨x.balance, x.nonce, x.codeHash⟩

/-- `storage` answers the slot of the state or an error -/
def StorageSound (T : FullState E.codec) (db : WitnessDatabase E) (address : Address) (slot : U256) : Prop :=
  ∀ v, db.storage address slot = .ok v →
    v = T.slot (E.codec.keccak256 (beBytes address)) (E.codec.keccak256 (beBytes slot))

variable {T : FullState E.codec} {P : Paths} {w : ExecutionWitness} {db : WitnessDatabase E}

/-- the value the trie answers for an account of the state -/
theorem getAccountValue_eq (law : RevealLaw E T P) (hreveal : revealWitness E P.root w = .ok db.trie) (a : B256) :
    (E.trie.getAccountValue db.trie a = none ∧ (T.account a = none ∨ ¬ Supplied E.codec w (P.account a))) ∨
      ∃ x, E.trie.getAccountValue db.trie a = some (E.codec.encodeTrieAccount x) ∧ T.account a = some x ∧
        Supplied E.codec w (P.account a) := by
  have hvalue := law.account w db.trie hreveal a
  cases hg : E.trie.getAccountValue db.trie a with
  | none =>
    refine Or.inl ⟨rfl, ?_⟩
    by_contra hne
    rw [not_or, not_not] at hne
    obtain ⟨x, hx⟩ := Option.ne_none_iff_exists'.1 hne.1
    have := (hvalue (E.codec.encodeTrieAccount x)).2 ⟨⟨x, hx, rfl⟩, hne.2⟩
    rw [hg] at this
    cases this
  | some v =>
    obtain ⟨⟨x, hx, rfl⟩, hs⟩ := (hvalue v).1 hg
    exact Or.inr ⟨x, rfl, hx, hs⟩

/-- the value the trie answers for a slot of the state -/
theorem getStorageSlotValue_eq (law : RevealLaw E T P) (hreveal : revealWitness E P.root w = .ok db.trie) (a s : B256) :
    (E.trie.getStorageSlotValue db.trie a s = none ∧ (T.slot a s = 0 ∨ ¬ Supplied E.codec w (P.slot a s))) ∨
      E.trie.getStorageSlotValue db.trie a s = some (E.codec.encodeU256 (T.slot a s)) ∧ T.slot a s ≠ 0 ∧
        Supplied E.codec w (P.slot a s) := by
  have hvalue := law.slot w db.trie hreveal a s
  cases hg : E.trie.getStorageSlotValue db.trie a s with
  | none =>
    refine Or.inl ⟨rfl, ?_⟩
    by_contra hne
    rw [not_or, not_not] at hne
    have := (hvalue (E.codec.encodeU256 (T.slot a s))).2 ⟨⟨hne.1, rfl⟩, hne.2⟩
    rw [hg] at this
    cases this
  | some v =>
    obtain ⟨⟨hx, rfl⟩, hs⟩ := (hvalue v).1 hg
    exact Or.inr ⟨rfl, hx, hs⟩

theorem basicSound_iff (law : RevealLaw E T P) (hreveal : revealWitness E P.root w = .ok db.trie) (address : Address) :
    BasicSound T db address ↔
      (T.account (E.codec.keccak256 (beBytes address)) = none ∨
        Supplied E.codec w (P.account (E.codec.keccak256 (beBytes address)))) := by
  simp only [BasicSound, basic]
  rcases getAccountValue_eq law hreveal (E.codec.keccak256 (beBytes address)) with ⟨hnone, hcase⟩ | ⟨x, hsome, hx, hs⟩
  · simp only [hnone, Except.ok.injEq]
    constructor
    · intro h
      have hmap := (h none rfl).symm
      exact Or.inl (Option.map_eq_none_iff.1 hmap)
    · rintro (hT | hs) r rfl
      · rw [hT]; rfl
      · rw [hcase.resolve_right fun hn => hn hs]; rfl
  · simp only [hsome, T.account_codec _ _ hx, Except.ok.injEq]
    refine ⟨fun _ => Or.inr hs, ?_⟩
    rintro _ r rfl
    rw [hx]
    rfl

theorem storageSound_iff (law : RevealLaw E T P) (hreveal : revealWitness E P.root w = .ok db.trie) (address : Address)
    (slot : U256) :
    StorageSound T db address slot ↔
      (T.slot (E.codec.keccak256 (beBytes address)) (E.codec.keccak256 (beBytes slot)) = 0 ∨
        Supplied E.codec w (P.slot (E.codec.keccak256 (beBytes address)) (E.codec.keccak256 (beBytes slot)))) := by
  simp only [StorageSound, storage]
  rcases getStorageSlotValue_eq law hreveal (E.codec.keccak256 (beBytes address)) (E.codec.keccak256 (beBytes slot)) with
    ⟨hnone, hcase⟩ | ⟨hsome, hx, hs⟩
  · simp only [hnone, Except.ok.injEq]
    constructor
    · intro h
      exact Or.inl (h 0 rfl).symm
    · rintro (hT | hs) v rfl
      · exact hT.symm
      · exact (hcase.resolve_right fun hn => hn hs).symm
  · simp only [hsome, T.slot_codec, Except.ok.injEq]
    refine ⟨fun _ => Or.inr hs, ?_⟩
    rintro _ v rfl
    rfl

/-- **Witness reads.** For every full state, every witness that is revealed at its root, every address and slot: both
reads answer what the state has or an error exactly when the state has no account there or the whole path to it was
supplied, and the same for the slot. -/
theorem witness_reads_sound_iff (T : FullState E.codec) (P : Paths) (law : RevealLaw E T P) (parent : SealedHeader)
    (hroot : parent.stateRoot = P.root) (w : ExecutionWitness) (db : WitnessDatabase E)
    (hreveal : revealWitness E parent.stateRoot w = .ok db.trie) (address : Address) (slot : U256) :
    (BasicSound T db address ∧ StorageSound T db address slot) ↔
      (T.account (E.codec.keccak256 (beBytes address)) = none ∨
        Supplied E.codec w (P.account (E.codec.keccak256 (beBytes address)))) ∧
      (T.slot (E.codec.keccak256 (beBytes address)) (E.codec.keccak256 (beBytes slot)) = 0 ∨
        Supplied E.codec w (P.slot (E.codec.keccak256 (beBytes address)) (E.codec.keccak256 (beBytes slot)))) := by
  rw [hroot] at hreveal
  rw [basicSound_iff law hreveal, storageSound_iff law hreveal]

/-! ## A path cut off -/

/-- an account at every address, with 5 in slot 7 -/
def smallState : FullState smallEnv.codec where
  account _ := some ⟨0, 0, 0, 0⟩
  slot _ s := if s = 7 then 5 else 0
  account_codec a x h := by cases h; decide
  slot_codec a s := by split_ifs <;> decide

def smallPaths : Paths where
  root := 0
  account _ := [[1, 0]]
  slot _ _ := [[1, 0], [3]]

theorem smallLaw : RevealLaw smallEnv smallState smallPaths := by
  have haccount : ∀ w, Supplied smallEnv.codec w [[1, 0]] ↔ (witnessNodes smallEnv.codec w).get 256 = some [1, 0] := by
    intro w
    simp only [Supplied, List.forall_mem_singleton]
    exact Iff.rfl
  have hslot : ∀ w, Supplied smallEnv.codec w [[1, 0], [3]] ↔
      (witnessNodes smallEnv.codec w).get 256 = some [1, 0] ∧ (witnessNodes smallEnv.codec w).get 3 = some [3] := by
    intro w
    simp only [Supplied, List.forall_mem_cons]
    exact ⟨fun h => ⟨h.1, h.2.1⟩, fun h => ⟨h.1, h.2, by simp⟩⟩
  refine ⟨?_, ?_⟩
  · intro w trie h a v
    cases h
    rw [show smallPaths.account a = [[1, 0]] from rfl, haccount]
    change (if (witnessNodes smallEnv.codec w).get 256 = some [1, 0] then some [0] else none) = some v ↔ _
    constructor
    · intro hv
      split_ifs at hv with hn
      cases hv
      exact ⟨⟨⟨0, 0, 0, 0⟩, rfl, by decide⟩, hn⟩
    · rintro ⟨⟨x, hx, rfl⟩, hn⟩
      cases hx
      rw [if_pos hn]
      decide
  · intro w trie h a s v
    cases h
    rw [show smallPaths.slot a s = [[1, 0], [3]] from rfl, hslot]
    change (if s = 7 ∧ (witnessNodes smallEnv.codec w).get 256 = some [1, 0] ∧
      (witnessNodes smallEnv.codec w).get 3 = some [3] then some [5] else none) = some v ↔ _
    have hs7 : ∀ s, smallState.slot a s = if s = 7 then 5 else 0 := fun _ => rfl
    constructor
    · intro hv
      split_ifs at hv with hn
      cases hv
      obtain ⟨rfl, hn⟩ := hn
      exact ⟨⟨by rw [hs7]; decide, by rw [hs7]; decide⟩, hn⟩
    · rintro ⟨⟨hne, rfl⟩, hn⟩
      rw [hs7] at hne ⊢
      split_ifs at hne with hs
      · rw [if_pos ⟨hs, hn⟩, if_pos hs]; decide
      · exact absurd rfl hne

def smallHeader : SealedHeader := ⟨⟨0, 0, 0, 0, []⟩, 1⟩

/-- the database over the nodes of a witness -/
def smallDatabase (w : ExecutionWitness) : WitnessDatabase smallEnv :=
  ⟨⟨⟨∅, none, none⟩, ChainState.empty⟩, ⟨0, 1⟩, (0, witnessNodes smallEnv.codec w)⟩

/-- with both nodes the reads are right -/
theorem witness_reads_sound_small :
    BasicSound smallState (smallDatabase ⟨[[1, 0], [3]], 3⟩) 0 ∧
      StorageSound smallState (smallDatabase ⟨[[1, 0], [3]], 3⟩) 0 7 := by
  refine (witness_reads_sound_iff smallState smallPaths smallLaw smallHeader rfl ⟨[[1, 0], [3]], 3⟩ _ rfl 0 7).2 ⟨?_, ?_⟩
  · exact Or.inr (by unfold Supplied; decide +kernel)
  · exact Or.inr (by unfold Supplied; decide +kernel)

/-- **A cut-off path reads as absence.** The witness lacks the storage node: slot 7 holds 5 and is read as 0. It lacks
both nodes: the account is read as absent. -/
theorem witness_reads_unsound :
    RevealLaw smallEnv smallState smallPaths ∧
      revealWitness smallEnv smallHeader.stateRoot ⟨[[1, 0]], 2⟩ = .ok (smallDatabase ⟨[[1, 0]], 2⟩).trie ∧
      ¬ StorageSound smallState (smallDatabase ⟨[[1, 0]], 2⟩) 0 7 ∧
      revealWitness smallEnv smallHeader.stateRoot ⟨[], 0⟩ = .ok (smallDatabase ⟨[], 0⟩).trie ∧
      ¬ BasicSound smallState (smallDatabase ⟨[], 0⟩) 0 := by
  refine ⟨smallLaw, rfl, ?_, rfl, ?_⟩
  · intro h
    have hread : (smallDatabase ⟨[[1, 0]], 2⟩).storage 0 7 = .ok 0 := by decide +kernel
    exact absurd (h 0 hread) (by decide +kernel)
  · intro h
    have hread : (smallDatabase ⟨[], 0⟩).basic 0 = .ok none := by decide +kernel
    exact absurd (h none hread) (by decide +kernel)

end WitnessDatabase

end Ress
