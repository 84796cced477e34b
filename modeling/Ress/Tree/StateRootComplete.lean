/-
The state root computed from a reveal that has every path the update touches.

`RevealLaws` is what is assumed of the sparse trie there: a write at a revealed path succeeds and keeps the revealed
paths, a wiped or a new trie has every path, and a revealed trie has a root.

- `leafUpdated`: the account leaves after the post state, with every account that is written or removed.
- `Complete`: every touched path is revealed.
- `calculateStateRoot_ok`: then the call succeeds, for every schedule of the workers.
- `state_root_complete`: and it answers the root of the updated leaves. So the schedule does not matter.
-/
import Ress.Tree.StateRootSound

namespace Ress

namespace StateRoot

variable {E : Env}

/-- what is assumed of writes at revealed paths: `StorageOpen t S` and `StateOpen t S` say that `t` reveals the paths of
the keys in `S`, with what their removal needs -/
structure RevealLaws (E : Env) where
  StorageOpen : E.trie.StorageTrie → Set B256 → Prop
  StateOpen : E.trie.StateTrie → Set B256 → Prop
  revealedEmpty : ∀ S, StorageOpen E.trie.revealedEmpty S
  wipe : ∀ t S, StorageOpen t S → ∃ t', E.trie.wipe t = .ok t' ∧ StorageOpen t' S
  updateLeaf : ∀ t S k v, StorageOpen t S → k ∈ S → ∃ t', E.trie.updateLeaf t k v = .ok t' ∧ StorageOpen t' S
  removeLeaf : ∀ t S k, StorageOpen t S → k ∈ S → ∃ t', E.trie.removeLeaf t k = .ok t' ∧ StorageOpen t' S
  take : ∀ t a S, StateOpen t S → StateOpen (E.trie.takeStorageTrie t a).2 S
  insert : ∀ t a s S, StateOpen t S → StateOpen (E.trie.insertStorageTrie t a s) S
  update : ∀ t S a v, StateOpen t S → a ∈ S → ∃ t', E.trie.updateAccountLeaf t a v = .ok t' ∧ StateOpen t' S
  remove : ∀ t S a, StateOpen t S → a ∈ S → ∃ t', E.trie.removeAccountLeaf t a = .ok t' ∧ StateOpen t' S
  root : ∀ t S, StateOpen t S → ∃ r, E.trie.root t = .ok r

/-! ## The updated leaves -/

/-- the leaf that is written for an account: its fields, and the root of its storage after the post state -/
def accountLeafAfter (L : SparseTrieLaws E) (T : FullState E.codec) (state : HashedPostState) (a : B256)
    (account : Account) : Bytes :=
  E.codec.encodeTrieAccount (E.intoTrieAccount account (L.rootOf (slotLeaves E.codec (slotAfter T state a))))

open Classical in
/-- the leaf of an account after the post state: one that is not updated keeps its own, with the root of its storage; a
removed account and an empty account have none when their storage ends empty -/
noncomputable def leafUpdated (L : SparseTrieLaws E) (T : FullState E.codec) (state : HashedPostState) (a : B256) :
    Option Bytes :=
  match state.accounts.get a with
  | none => (T.account a).map fun x =>
      E.codec.encodeTrieAccount { x with storageRoot := L.rootOf (slotLeaves E.codec (slotAfter T state a)) }
  | some none => if slotAfter T state a = fun _ => 0 then none else some (accountLeafAfter L T state a ⟨0, 0, none⟩)
  | some (some account) =>
    if E.isEmpty account ∧ slotAfter T state a = fun _ => 0 then none else some (accountLeafAfter L T state a account)

/-- every address with a storage update has an account update -/
def Paired (state : HashedPostState) : Prop := ∀ a, state.storages.get a ≠ none → state.accounts.get a ≠ none

/-- the reveal has the path of every account and of every slot that is written; a storage trie that is missing is wiped
or was empty -/
structure Complete (R : RevealLaws E) (T : FullState E.codec) (trie : E.trie.StateTrie) (state : HashedPostState) :
    Prop where
  accounts : R.StateOpen trie {a | state.accounts.get a ≠ none}
  storages : ∀ a storage, state.storages.get a = some storage → ∀ s, E.trie.storageTrieMut trie a = some s →
    R.StorageOpen s {k | storage.storage.get k ≠ none}
  missing : ∀ a storage, state.storages.get a = some storage → E.trie.storageTrieMut trie a = none →
    storage.wiped = true ∨ T.slot a = fun _ => 0

/-- no storage of an updated account but the empty one has the root of the empty trie -/
def EmptyRootOnly (L : SparseTrieLaws E) (T : FullState E.codec) (state : HashedPostState) : Prop :=
  ∀ a, state.accounts.get a ≠ none → L.rootOf (slotLeaves E.codec (slotAfter T state a)) = E.codec.emptyRootHash →
    slotAfter T state a = fun _ => 0

variable {L : SparseTrieLaws E} {R : RevealLaws E} {T : FullState E.codec} {state : HashedPostState}
  {trie : E.trie.StateTrie}

/-! ## The storage pass succeeds -/

theorem updateSlot_ok {t : E.trie.StorageTrie} {S : Set B256} {e : B256 × U256} (ht : R.StorageOpen t S)
    (he : e.1 ∈ S) : ∃ t', updateSlot E t e = .ok t' ∧ R.StorageOpen t' S := by
  simp only [updateSlot]
  split_ifs
  · exact R.removeLeaf t S e.1 ht he
  · exact R.updateLeaf t S e.1 _ ht he

/-- a worker succeeds -/
theorem updateStorageTrie_ok {storage : HashedStorage} {t : Option E.trie.StorageTrie}
    (ht : ∀ s, t = some s → R.StorageOpen s {k | storage.storage.get k ≠ none}) :
    ∃ t', updateStorageTrie E storage t = .ok t' := by
  have hstart : R.StorageOpen (t.getD E.trie.revealedEmpty) {k | storage.storage.get k ≠ none} := by
    cases t with
    | none => exact R.revealedEmpty _
    | some s => exact ht s rfl
  have hwrite : ∀ (t : E.trie.StorageTrie) (m : B256 → Unit), ∀ e ∈ sortedEntries storage.storage,
      R.StorageOpen t {k | storage.storage.get k ≠ none} → m e.1 = () →
      ∃ t', updateSlot E t e = .ok t' ∧ R.StorageOpen t' {k | storage.storage.get k ≠ none} := by
    intro t m e he ht _
    refine updateSlot_ok ht ?_
    show storage.storage.get e.1 ≠ none
    rw [Writes.mem_entries.1 he]
    simp
  have hfold : ∀ t₁, R.StorageOpen t₁ {k | storage.storage.get k ≠ none} →
      ∃ t', (sortedEntries storage.storage).foldlM (updateSlot E) t₁ = .ok t' := by
    intro t₁ ht₁
    obtain ⟨t', -, hok, -⟩ := Writes.foldlM_ok (fun t _ => R.StorageOpen t {k | storage.storage.get k ≠ none})
      (fun _ => ()) (fun _ => ()) (m := fun _ => ()) Writes.entries_nodup hwrite (fun _ _ => rfl) ht₁
    exact ⟨t', hok⟩
  simp only [updateStorageTrie]
  by_cases hw : storage.wiped = true
  · obtain ⟨t₁, hwipe, ht₁⟩ := R.wipe _ _ hstart
    obtain ⟨t', hok⟩ := hfold t₁ ht₁
    refine ⟨t', ?_⟩
    rw [if_pos hw, hwipe]
    exact hok
  · obtain ⟨t', hok⟩ := hfold _ hstart
    refine ⟨t', ?_⟩
    rw [if_neg hw]
    exact hok

theorem takeStorageTries_open (l : List (B256 × HashedStorage)) {S : Set B256} (h : R.StateOpen trie S) :
    R.StateOpen (takeStorageTries E l trie).2 S := by
  induction l generalizing trie with
  | nil => exact h
  | cons e l ih => exact ih (R.take _ e.1 _ h)

theorem insertStorageTries_ok {l : List (Except String (B256 × E.trie.StorageTrie))} (hl : ∀ r ∈ l, ∃ p, r = .ok p)
    {S : Set B256} (h : R.StateOpen trie S) :
    ∃ trie', insertStorageTries E l trie = .ok trie' ∧ R.StateOpen trie' S := by
  induction l generalizing trie with
  | nil => exact ⟨trie, rfl, h⟩
  | cons r l ih =>
    obtain ⟨⟨a, s⟩, rfl⟩ := hl r (List.mem_cons_self ..)
    exact ih (fun r hr => hl r (List.mem_cons_of_mem _ hr)) (R.insert _ a s _ h)

/-! ## The account pass succeeds -/

theorem accountStorageRoot_ok {m : B256 → Option Bytes} (hm : L.State trie m) {a : B256} (ha : m a = accountLeaves T a) :
    ∃ r, accountStorageRoot E trie a = .ok r := by
  simp only [accountStorageRoot]
  cases E.trie.storageTrieMut trie a with
  | some s => exact ⟨_, rfl⟩
  | none =>
    cases hv : E.trie.getAccountValue trie a with
    | none => exact ⟨_, rfl⟩
    | some value =>
      have hleaf := ha.symm.trans (L.getAccountValue _ _ _ _ hm hv)
      obtain ⟨x, hx, rfl⟩ := Option.map_eq_some_iff.1 hleaf
      simp only [T.account_codec a x hx]
      exact ⟨_, rfl⟩

theorem updateAccount_ok {m : B256 → Option Bytes} {e : B256 × Option Account} {S : Set B256} (hm : L.State trie m)
    (ha : m e.1 = accountLeaves T e.1) (hopen : R.StateOpen trie S) (he : e.1 ∈ S) :
    ∃ trie', updateAccount E trie e = .ok trie' ∧ R.StateOpen trie' S := by
  obtain ⟨r, hr⟩ := accountStorageRoot_ok (T := T) hm ha
  simp only [updateAccount, hr]
  change ∃ trie', (if E.isEmpty (e.2.getD ⟨0, 0, none⟩) ∧ r = E.codec.emptyRootHash then _ else _) = _ ∧ _
  split_ifs
  · exact R.remove _ _ _ hopen he
  · exact R.update _ _ _ _ hopen he

/-- **A complete reveal is enough.** The call succeeds, whatever the schedule. -/
theorem calculateStateRoot_ok (hT : Rooted L T) (hreveal : Reveals L T trie) (hcomplete : Complete R T trie state)
    (sched : Schedule) : ∃ r, calculateStateRoot E sched trie state = .ok r := by
  obtain ⟨htaken, -, -⟩ := takeStorageTries_eq (L := L)
    (Writes.entries_nodup (o := sched.order) (m := state.storages)) trie
  have hdelivered : ∀ r ∈ sched.arrival
      ((takeStorageTries E (Writes.entries sched.order state.storages) trie).1.map (deliver E)), ∃ p, r = .ok p := by
    intro r hr
    rw [(sched.arrival_perm _).mem_iff, htaken, List.map_map, List.mem_map] at hr
    obtain ⟨e, he, rfl⟩ := hr
    obtain ⟨s, hs⟩ := updateStorageTrie_ok (hcomplete.storages e.1 e.2 (Writes.mem_entries.1 he))
    exact ⟨(e.1, s), deliver_ok.2 ⟨rfl, hs⟩⟩
  obtain ⟨trie₂, hins, hopen⟩ := insertStorageTries_ok hdelivered
    (takeStorageTries_open (Writes.entries sched.order state.storages) hcomplete.accounts)
  obtain ⟨hstate, hstored⟩ := storage_pass hreveal hins
  have hslots : ∀ a, ¬ state.storages.get a ≠ none → slotComputed T trie state a = T.slot a := by
    intro a ha
    simp only [slotComputed]
    rw [not_not.1 ha]
    rfl
  have hwrite : ∀ (t : E.trie.StateTrie) (m : B256 → Option Bytes), ∀ e ∈ sortedEntries state.accounts,
      (L.State t m ∧ Stored L (slotComputed T trie state) (fun a => state.storages.get a ≠ none) t) ∧
        R.StateOpen t {a | state.accounts.get a ≠ none} → m e.1 = accountLeaves T e.1 →
      ∃ t', updateAccount E t e = .ok t' ∧
        (L.State t' (Function.update m e.1
          (writtenLeaf E (L.rootOf (slotLeaves E.codec (slotComputed T trie state e.1))) e.2)) ∧
          Stored L (slotComputed T trie state) (fun a => state.storages.get a ≠ none) t') ∧
        R.StateOpen t' {a | state.accounts.get a ≠ none} := by
    rintro t m e he ⟨⟨hm, hs⟩, ho⟩ hleaf
    have hmem : state.accounts.get e.1 ≠ none := by
      rw [Writes.mem_entries.1 he]
      simp
    obtain ⟨t', hok, ho'⟩ := updateAccount_ok hm hleaf ho hmem
    exact ⟨t', hok, updateAccount_state hT hslots hs hm hleaf hok, ho'⟩
  obtain ⟨trie₃, m₃, hfold, -, hopen₃⟩ := Writes.foldlM_ok
    (fun t m => (L.State t m ∧ Stored L (slotComputed T trie state) (fun a => state.storages.get a ≠ none) t) ∧
      R.StateOpen t {a | state.accounts.get a ≠ none})
    (fun e => writtenLeaf E (L.rootOf (slotLeaves E.codec (slotComputed T trie state e.1))) e.2) (accountLeaves T)
    Writes.entries_nodup hwrite (fun _ _ => rfl) ⟨⟨hstate, hstored⟩, hopen⟩
  obtain ⟨r, hr⟩ := R.root trie₃ _ hopen₃
  refine ⟨r, ?_⟩
  simp only [calculateStateRoot, hins]
  change (Writes.entries increasing state.accounts).foldlM (updateAccount E) trie₂ >>= E.trie.root = _
  rw [hfold]
  exact hr

/-! ## The root answered -/

/-- with a complete reveal no slot is missed -/
theorem slotComputed_complete (hcomplete : Complete R T trie state) (a : B256) :
    slotComputed T trie state a = slotAfter T state a := by
  rw [slotComputed_iff]
  intro storage hstorage
  cases hs : E.trie.storageTrieMut trie a with
  | some s => exact Or.inr (Or.inl (by rw [hs]; simp))
  | none =>
    rcases hcomplete.missing a storage hstorage hs with hw | hempty
    · exact Or.inl hw
    · exact Or.inr (Or.inr fun s hne => absurd (congrFun hempty s) hne)

/-- an account without an update has no storage update either, so its storage root stays -/
theorem leafUpdated_untouched (hT : Rooted L T) (hpaired : Paired state) {a : B256}
    (ha : state.accounts.get a = none) : leafUpdated L T state a = accountLeaves T a := by
  have hstorage : state.storages.get a = none := by
    by_contra hne
    exact hpaired a hne ha
  have hslots : slotAfter T state a = T.slot a := by
    simp only [slotAfter, hstorage, Option.elim_none]
  simp only [leafUpdated, ha, hslots, accountLeaves]
  cases hx : T.account a with
  | none => rfl
  | some x =>
    rw [Option.map_some, Option.map_some, ← hT.root a x hx]

/-- the leaf that is computed is the updated one -/
theorem leafComputed_complete (hdefault : E.isEmpty ⟨0, 0, none⟩ = true) (hT : Rooted L T) (hpaired : Paired state)
    (hcomplete : Complete R T trie state) (hroot : EmptyRootOnly L T state) (a : B256) :
    leafComputed L T trie state a = leafUpdated L T state a := by
  cases ha : state.accounts.get a with
  | none =>
    rw [leafUpdated_untouched hT hpaired ha]
    simp only [leafComputed, ha, Option.elim_none]
  | some entry =>
    have hempty : L.rootOf (slotLeaves E.codec (slotAfter T state a)) = E.codec.emptyRootHash ↔
        slotAfter T state a = fun _ => 0 := by
      refine ⟨hroot a (by rw [ha]; simp), fun h => ?_⟩
      rw [h, slotLeaves_zero, L.rootOf_empty]
    simp only [leafComputed, leafUpdated, slotComputed_complete hcomplete, ha]
    cases entry with
    | none => simp only [Option.elim_some, writtenLeaf, Option.getD_none, hdefault, hempty, true_and, accountLeafAfter]
    | some account => simp only [Option.elim_some, writtenLeaf, Option.getD_some, hempty, accountLeafAfter]

/-- where the storage of every removed account ends empty, a removed account has no leaf -/
theorem leafUpdated_cleared (hcleared : ∀ a, state.accounts.get a = some none → slotAfter T state a = fun _ => 0)
    (a : B256) : leafUpdated L T state a = leafAfter L T state a := by
  simp only [leafUpdated, leafAfter]
  cases ha : state.accounts.get a with
  | none => rfl
  | some entry =>
    cases entry with
    | none => simp only [if_pos (hcleared a ha)]
    | some account => rfl

/-- **State roots of complete reveals.** For every pre-state, every post state in which an address with a storage update
has an account update, and every reveal of the touched paths: under every schedule of the workers the call answers the
root of the updated leaves. Where the storage of removed accounts ends empty, these have no leaf for any of them. -/
theorem state_root_complete (L : SparseTrieLaws E) (R : RevealLaws E) (hdefault : E.isEmpty ⟨0, 0, none⟩ = true)
    (T : FullState E.codec) (hT : Rooted L T) (trie : E.trie.StateTrie) (hreveal : Reveals L T trie)
    (state : HashedPostState) (hpaired : Paired state) (hcomplete : Complete R T trie state)
    (hroot : EmptyRootOnly L T state) :
    (∀ sched, calculateStateRoot E sched trie state = .ok (L.rootOf (leafUpdated L T state))) ∧
      ((∀ a, state.accounts.get a = some none → slotAfter T state a = fun _ => 0) →
        L.rootOf (leafUpdated L T state) = rootAfter L T state) := by
  constructor
  · intro sched
    obtain ⟨r, hr⟩ := calculateStateRoot_ok hT hreveal hcomplete sched
    have hleaves : leafComputed L T trie state = leafUpdated L T state := by
      funext a
      exact leafComputed_complete hdefault hT hpaired hcomplete hroot a
    rw [hr, calculateStateRoot_eq hT hreveal hr, hleaves]
  · intro hcleared
    have hleaves : leafUpdated L T state = leafAfter L T state := by
      funext a
      exact leafUpdated_cleared hcleared a
    rw [rootAfter, hleaves]

/-! ## A complete reveal -/

/-- every write succeeds -/
def pairRevealLaws : RevealLaws pairEnv where
  StorageOpen _ _ := True
  StateOpen _ _ := True
  revealedEmpty _ := trivial
  wipe _ _ _ := ⟨_, rfl, trivial⟩
  updateLeaf _ _ _ _ _ _ := ⟨_, rfl, trivial⟩
  removeLeaf _ _ _ _ _ := ⟨_, rfl, trivial⟩
  take _ _ _ _ := trivial
  insert _ _ _ _ _ := trivial
  update _ _ _ _ _ _ := ⟨_, rfl, trivial⟩
  remove _ _ _ _ _ := ⟨_, rfl, trivial⟩
  root _ _ _ := ⟨_, rfl⟩

theorem writeSlot_paired : Paired writeSlot := by
  intro a ha
  rw [writeSlot_storages] at ha
  rw [writeSlot_accounts]
  split_ifs at ha ⊢ <;> simp at ha ⊢

theorem writeSlot_complete : Complete pairRevealLaws oneSlot (oneSlotReveal true) writeSlot where
  accounts := trivial
  storages _ _ _ _ _ := trivial
  missing a storage hstorage hnone := by
    rw [writeSlot_storages] at hstorage
    split_ifs at hstorage with ha
    subst ha
    cases hnone

theorem writeSlot_emptyRootOnly : EmptyRootOnly pairLaws oneSlot writeSlot := fun a _ h =>
  ((oneSlot_noCollision (oneSlotReveal true)).empty_iff pairCodecLaws (Content.after a)).1 h

/-- a slot written beside another one, with the storage trie revealed -/
theorem state_root_complete_writeSlot :
    calculateStateRoot pairEnv sortedSchedule (oneSlotReveal true) writeSlot =
      .ok (pairLaws.rootOf (leafUpdated pairLaws oneSlot writeSlot)) :=
  (state_root_complete pairLaws pairRevealLaws rfl oneSlot oneSlot_rooted (oneSlotReveal true) (oneSlot_reveals true)
    writeSlot writeSlot_paired writeSlot_complete writeSlot_emptyRootOnly).1 sortedSchedule

end StateRoot

end Ress
