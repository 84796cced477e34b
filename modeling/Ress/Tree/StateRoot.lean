/-
State root computation (`crates/engine/src/tree/root.rs`).

The storage tries of the updated accounts are taken out of the state trie in the iteration order `order` of the
storages map, updated in parallel, and put back in the order `arrival` in which the workers deliver them, a permutation
of it; the first error delivered ends the call. The account pass then runs in increasing order of the hashed address.

`calculateStateRoot_agrees`: all schedules answer the same root, or all an error.
-/
import Ress.Evm.WitnessDatabase
import Ress.Lib.Writes

namespace Ress

/-- increasing order of the hash -/
def increasing : Enumeration B256 := Enumeration.byKey BitVec.toNat fun _ _ h => BitVec.eq_of_toNat_eq h

/-- entries of a map in increasing order of the key -/
def sortedEntries {V : Type} (m : FMap B256 V) : List (B256 × V) := Writes.entries increasing m

namespace StateRoot

variable (E : Env)

/-- write one slot: a zero value removes the leaf -/
def updateSlot (storageTrie : E.trie.StorageTrie) (entry : B256 × U256) : Except String E.trie.StorageTrie :=
  if entry.2 = 0 then E.trie.removeLeaf storageTrie entry.1
  else E.trie.updateLeaf storageTrie entry.1 (E.codec.encodeU256 entry.2)

/-- the work of one parallel worker: the account's storage trie, or an empty one where none is revealed, wiped if the
account's storage was, with every slot written in increasing order -/
def updateStorageTrie (storage : HashedStorage) (storageTrie : Option E.trie.StorageTrie) :
    Except String E.trie.StorageTrie := do
  let storageTrie := storageTrie.getD E.trie.revealedEmpty
  let storageTrie ← if storage.wiped then E.trie.wipe storageTrie else pure storageTrie
  (sortedEntries storage.storage).foldlM (updateSlot E) storageTrie

/-- what a worker sends: the address with its updated storage trie -/
def deliver (entry : B256 × HashedStorage × Option E.trie.StorageTrie) : Except String (B256 × E.trie.StorageTrie) := do
  return (entry.1, ← updateStorageTrie E entry.2.1 entry.2.2)

/-- take the storage trie of every updated account out of the state trie -/
def takeStorageTries : List (B256 × HashedStorage) → E.trie.StateTrie →
    List (B256 × HashedStorage × Option E.trie.StorageTrie) × E.trie.StateTrie
  | [], trie => ([], trie)
  | (address, storage) :: storages, trie =>
    let (storageTrie, trie) := E.trie.takeStorageTrie trie address
    let (rest, trie) := takeStorageTries storages trie
    ((address, storage, storageTrie) :: rest, trie)

/-- put the delivered storage tries back -/
def insertStorageTries : List (Except String (B256 × E.trie.StorageTrie)) → E.trie.StateTrie →
    Except String E.trie.StateTrie
  | [], trie => .ok trie
  | .error error :: _, _ => .error error
  | .ok (address, storageTrie) :: rest, trie =>
    insertStorageTries rest (E.trie.insertStorageTrie trie address storageTrie)

/-- the storage root written with an account -/
def accountStorageRoot (trie : E.trie.StateTrie) (hashedAddress : B256) : Except String B256 :=
  match E.trie.storageTrieMut trie hashedAddress with
  | some storageTrie => .ok (E.trie.storageRoot storageTrie)
  | none =>
    match E.trie.getAccountValue trie hashedAddress with
    | some value =>
      match E.codec.decodeTrieAccount value with
      | some account => .ok account.storageRoot
      | none => .error "rlp"
    | none => .ok E.codec.emptyRootHash

/-- write one account: an empty account without storage has no leaf -/
def updateAccount (trie : E.trie.StateTrie) (entry : B256 × Option Account) : Except String E.trie.StateTrie := do
  let account := entry.2.getD ⟨0, 0, none⟩
  let storageRoot ← accountStorageRoot E trie entry.1
  if E.isEmpty account ∧ storageRoot = E.codec.emptyRootHash then
    E.trie.removeAccountLeaf trie entry.1
  else
    E.trie.updateAccountLeaf trie entry.1 (E.codec.encodeTrieAccount (E.intoTrieAccount account storageRoot))

/-- the schedule of the parallel stage: the iteration order of the storages map, and the order of arrival -/
structure Schedule where
  order : Enumeration B256
  arrival : ∀ {α : Type}, List α → List α
  arrival_perm : ∀ {α : Type} (l : List α), (arrival l).Perm l

/-- increasing order, and delivery in that order -/
def sortedSchedule : Schedule where
  order := increasing
  arrival l := l
  arrival_perm l := List.Perm.refl l

/-- compute the state root given a revealed sparse trie and hashed state update -/
def calculateStateRoot (sched : Schedule) (trie : E.trie.StateTrie) (state : HashedPostState) :
    Except String B256 := do
  let (taken, trie) := takeStorageTries E (Writes.entries sched.order state.storages) trie
  let trie ← insertStorageTries E (sched.arrival (taken.map (deliver E))) trie
  let trie ← (sortedEntries state.accounts).foldlM (updateAccount E) trie
  E.trie.root trie

/-! ## The order of the storage tries -/

section Order

variable {E : Env}

theorem takeStorageTries_keys (l : List (B256 × HashedStorage)) (trie : E.trie.StateTrie) :
    (takeStorageTries E l trie).1.map Prod.fst = l.map Prod.fst := by
  induction l generalizing trie with
  | nil => rfl
  | cons e l ih => exact congrArg (e.1 :: ·) (ih _)

/-- one delivered storage trie is put back -/
def insertDelivered (E : Env) (trie : E.trie.StateTrie) (delivered : Except String (B256 × E.trie.StorageTrie)) :
    Except String E.trie.StateTrie :=
  delivered.map fun d => E.trie.insertStorageTrie trie d.1 d.2

theorem insertStorageTries_eq_foldlM (l : List (Except String (B256 × E.trie.StorageTrie))) (trie : E.trie.StateTrie) :
    insertStorageTries E l trie = l.foldlM (insertDelivered E) trie := by
  induction l generalizing trie with
  | nil => rfl
  | cons d l ih =>
    cases d with
    | error error => rfl
    | ok d => exact ih _

theorem deliver_address {e : B256 × HashedStorage × Option E.trie.StorageTrie} {d : B256 × E.trie.StorageTrie}
    (h : deliver E e = .ok d) : d.1 = e.1 := by
  simp only [deliver] at h
  cases hu : updateStorageTrie E e.2.1 e.2.2 with
  | error error => rw [hu] at h; cases h
  | ok trie => rw [hu] at h; cases h; rfl

/-- `SparseStateTrie` keeps the storage tries in a map: those of different accounts are taken out and put back in any
order -/
structure StorageTrieMap (E : Env) : Prop where
  take_other : ∀ t {a b}, a ≠ b → (E.trie.takeStorageTrie (E.trie.takeStorageTrie t a).2 b).1 =
    (E.trie.takeStorageTrie t b).1
  take_comm : ∀ t {a b}, a ≠ b → (E.trie.takeStorageTrie (E.trie.takeStorageTrie t a).2 b).2 =
    (E.trie.takeStorageTrie (E.trie.takeStorageTrie t b).2 a).2
  insert_comm : ∀ t s s' {a b}, a ≠ b → E.trie.insertStorageTrie (E.trie.insertStorageTrie t a s) b s' =
    E.trie.insertStorageTrie (E.trie.insertStorageTrie t b s') a s

variable (hmap : StorageTrieMap E)

include hmap

theorem takeStorageTries_perm {l l' : List (B256 × HashedStorage)} (h : l.Perm l') (hnodup : (l.map Prod.fst).Nodup)
    (trie : E.trie.StateTrie) :
    (takeStorageTries E l trie).1.Perm (takeStorageTries E l' trie).1 ∧
      (takeStorageTries E l' trie).2 = (takeStorageTries E l trie).2 := by
  induction h generalizing trie with
  | nil => exact ⟨List.Perm.refl _, rfl⟩
  | cons x _ ih =>
    rw [List.map_cons, List.nodup_cons] at hnodup
    obtain ⟨htaken, hrest⟩ := ih hnodup.2 (E.trie.takeStorageTrie trie x.1).2
    exact ⟨htaken.cons _, hrest⟩
  | swap x y l =>
    have hne : y.1 ≠ x.1 := fun heq => (List.nodup_cons.1 hnodup).1 (heq ▸ List.mem_cons_self)
    simp only [takeStorageTries, hmap.take_comm trie hne, hmap.take_other trie hne, hmap.take_other trie hne.symm]
    exact ⟨List.Perm.swap _ _ _, trivial⟩
  | trans h _ ih ih' =>
    obtain ⟨htaken, hrest⟩ := ih hnodup trie
    obtain ⟨htaken', hrest'⟩ := ih' ((h.map _).nodup_iff.1 hnodup) trie
    exact ⟨htaken.trans htaken', hrest'.trans hrest⟩

theorem insertStorageTries_perm {l l' : List (Except String (B256 × E.trie.StorageTrie))} (h : l.Perm l')
    (hother : l.Pairwise fun x y => ∀ d d', x = .ok d → y = .ok d' → d.1 ≠ d'.1) (trie : E.trie.StateTrie) :
    Writes.Agrees (fun _ => True) (insertStorageTries E l trie) (insertStorageTries E l' trie) := by
  rw [insertStorageTries_eq_foldlM, insertStorageTries_eq_foldlM]
  refine Writes.foldlM_perm h (hother.imp fun {x y} hne s => ?_) trie
  cases x with
  | error error =>
    cases y with
    | error error' => exact Or.inr ⟨⟨error, rfl, trivial⟩, error', rfl, trivial⟩
    | ok d => exact Or.inl rfl
  | ok d =>
    cases y with
    | error error => exact Or.inl rfl
    | ok d' => exact Or.inl (congrArg Except.ok (hmap.insert_comm s d.2 d'.2 (hne d d' rfl rfl)).symm)

/-- **Scheduling plays no part.** Two schedules answer the same root, or both an error. -/
theorem calculateStateRoot_agrees (sched sched' : Schedule) (trie : E.trie.StateTrie) (state : HashedPostState) :
    Writes.Agrees (fun _ => True) (calculateStateRoot E sched trie state) (calculateStateRoot E sched' trie state) := by
  obtain ⟨htaken, hrest⟩ := takeStorageTries_perm hmap (Writes.entries_perm sched.order sched'.order state.storages)
    Writes.entries_nodup trie
  have hdelivered := htaken.map (deliver E)
  have harrival := (sched.arrival_perm _).trans (hdelivered.trans (sched'.arrival_perm _).symm)
  have hkeys : ((takeStorageTries E (Writes.entries sched.order state.storages) trie).1.map Prod.fst).Nodup := by
    rw [takeStorageTries_keys]
    exact Writes.entries_nodup
  have hother : (sched.arrival ((takeStorageTries E (Writes.entries sched.order state.storages) trie).1.map
      (deliver E))).Pairwise fun x y => ∀ d d', x = .ok d → y = .ok d' → d.1 ≠ d'.1 := by
    refine ((sched.arrival_perm _).pairwise_iff fun hne d d' hd hd' => (hne d' d hd' hd).symm).2 ?_
    refine List.pairwise_map.2 ((List.pairwise_map.1 hkeys).imp fun hne d d' hd hd' => ?_)
    rw [deliver_address hd, deliver_address hd']
    exact hne
  simp only [calculateStateRoot, hrest]
  exact (insertStorageTries_perm hmap harrival hother _).bind fun trie => Writes.Agrees.refl _ _

end Order

end StateRoot

end Ress
