/-
The state root computed from a partial reveal against the root of the full state.

`SparseTrieLaws` is what is assumed of the sparse trie. A trie stands for the full content of which it reveals a part:
an update or a removal that succeeds has changed that content, a root is the root of it, and an account leaf that is
written without being revealed was proven absent. A storage trie that is not revealed is reported as absent.

- `rootAfter`: the root of the full state with the post state applied; the statement to be compared with.
- `slotComputed`, `leafComputed`: what `calculate_state_root` computes from its reveal. A storage trie that is not
  revealed counts as empty.
- `calculateStateRoot_eq`: the computed root is the root of these leaves.
- `state_root_right_iff`: so a root is right exactly when each updated account fits its reveal (`Fits`).
-/
import Mathlib.Data.FinEnum
import Ress.Evm.WitnessReads
import Ress.Tree.StateRoot

namespace Ress

/-! ## The sparse trie -/

/-- what is assumed of `SparseStateTrie` and `SparseTrie`: `State t m` and `Storage t m` say that `t` is a reveal of a
trie with the leaves `m` -/
structure SparseTrieLaws (E : Env) where
  rootOf : (B256 → Option Bytes) → B256
  Storage : E.trie.StorageTrie → (B256 → Option Bytes) → Prop
  State : E.trie.StateTrie → (B256 → Option Bytes) → Prop
  rootOf_empty : rootOf (fun _ => none) = E.codec.emptyRootHash
  revealedEmpty : Storage E.trie.revealedEmpty fun _ => none
  wipe : ∀ t t' m, Storage t m → E.trie.wipe t = .ok t' → Storage t' fun _ => none
  updateLeaf : ∀ t t' m k v, Storage t m → E.trie.updateLeaf t k v = .ok t' → Storage t' (Function.update m k (some v))
  removeLeaf : ∀ t t' m k, Storage t m → E.trie.removeLeaf t k = .ok t' → Storage t' (Function.update m k none)
  storageRoot : ∀ t m, Storage t m → E.trie.storageRoot t = rootOf m
  take : ∀ t a, (E.trie.takeStorageTrie t a).1 = E.trie.storageTrieMut t a
  take_mut : ∀ t a b, E.trie.storageTrieMut (E.trie.takeStorageTrie t a).2 b =
    if b = a then none else E.trie.storageTrieMut t b
  take_state : ∀ t a m, State t m → State (E.trie.takeStorageTrie t a).2 m
  insert_mut : ∀ t a s b, E.trie.storageTrieMut (E.trie.insertStorageTrie t a s) b =
    if b = a then some s else E.trie.storageTrieMut t b
  insert_state : ∀ t a s m, State t m → State (E.trie.insertStorageTrie t a s) m
  getAccountValue : ∀ t m a v, State t m → E.trie.getAccountValue t a = some v → m a = some v
  update : ∀ t t' m a v, State t m → E.trie.updateAccountLeaf t a v = .ok t' →
    State t' (Function.update m a (some v)) ∧ (E.trie.getAccountValue t a = none → m a = none) ∧
      ∀ b, E.trie.storageTrieMut t' b = E.trie.storageTrieMut t b
  remove : ∀ t t' m a, State t m → E.trie.removeAccountLeaf t a = .ok t' →
    State t' (Function.update m a none) ∧ (E.trie.getAccountValue t a = none → m a = none) ∧
      ∀ b, E.trie.storageTrieMut t' b = E.trie.storageTrieMut t b
  root : ∀ t m r, State t m → E.trie.root t = .ok r → r = rootOf m

/-! ## The full state with the post state applied -/

/-- the leaf of a slot value; zero has none -/
def slotLeaf (C : StateCodec) (v : U256) : Option Bytes := if v = 0 then none else some (C.encodeU256 v)

/-- the leaves of a storage trie -/
def slotLeaves (C : StateCodec) (slots : B256 → U256) : B256 → Option Bytes := fun s => slotLeaf C (slots s)

/-- the slots of an account after its storage update -/
def HashedStorage.applied (storage : HashedStorage) (slots : B256 → U256) : B256 → U256 := fun s =>
  (storage.storage.get s).getD (if storage.wiped then 0 else slots s)

namespace StateRoot

variable {E : Env}

/-- the leaves of the accounts of a state -/
def accountLeaves (T : FullState E.codec) : B256 → Option Bytes := fun a =>
  (T.account a).map E.codec.encodeTrieAccount

/-- the storage roots in the accounts are the roots of the storage, and what has no account has no storage -/
structure Rooted (L : SparseTrieLaws E) (T : FullState E.codec) : Prop where
  root : ∀ a x, T.account a = some x → x.storageRoot = L.rootOf (slotLeaves E.codec (T.slot a))
  absent : ∀ a, T.account a = none → T.slot a = fun _ => 0

/-- `trie` reveals a part of the account trie and of some storage tries of `T` -/
structure Reveals (L : SparseTrieLaws E) (T : FullState E.codec) (trie : E.trie.StateTrie) : Prop where
  accounts : L.State trie (accountLeaves T)
  storages : ∀ a s, E.trie.storageTrieMut trie a = some s → L.Storage s (slotLeaves E.codec (T.slot a))

/-- the slots of an account after the post state -/
def slotAfter (T : FullState E.codec) (state : HashedPostState) (a : B256) : B256 → U256 :=
  (state.storages.get a).elim (T.slot a) (·.applied (T.slot a))

open Classical in
/-- the leaf of an account after the post state: a deleted account has none, nor has an empty account without storage -/
noncomputable def leafAfter (L : SparseTrieLaws E) (T : FullState E.codec) (state : HashedPostState) (a : B256) :
    Option Bytes :=
  let storageRoot := L.rootOf (slotLeaves E.codec (slotAfter T state a))
  match state.accounts.get a with
  | none => (T.account a).map fun x => E.codec.encodeTrieAccount { x with storageRoot := storageRoot }
  | some none => none
  | some (some account) =>
    if E.isEmpty account ∧ slotAfter T state a = fun _ => 0 then none
    else some (E.codec.encodeTrieAccount (E.intoTrieAccount account storageRoot))

/-- the root of `T` with the post state applied -/
noncomputable def rootAfter (L : SparseTrieLaws E) (T : FullState E.codec) (state : HashedPostState) : B256 :=
  L.rootOf (leafAfter L T state)

/-! ## What is computed from a reveal -/

/-- the slots of an account as computed: those of a storage trie that is not revealed count as zero -/
def slotComputed (T : FullState E.codec) (trie : E.trie.StateTrie) (state : HashedPostState) (a : B256) :
    B256 → U256 :=
  (state.storages.get a).elim (T.slot a) fun storage =>
    storage.applied (if (E.trie.storageTrieMut trie a).isSome then T.slot a else fun _ => 0)

/-- the leaf written for an account whose storage root is `storageRoot` -/
def writtenLeaf (E : Env) (storageRoot : B256) (entry : Option Account) : Option Bytes :=
  let account := entry.getD ⟨0, 0, none⟩
  if E.isEmpty account ∧ storageRoot = E.codec.emptyRootHash then none
  else some (E.codec.encodeTrieAccount (E.intoTrieAccount account storageRoot))

/-- the leaf of an account as computed -/
def leafComputed (L : SparseTrieLaws E) (T : FullState E.codec) (trie : E.trie.StateTrie) (state : HashedPostState)
    (a : B256) : Option Bytes :=
  (state.accounts.get a).elim (accountLeaves T a)
    (writtenLeaf E (L.rootOf (slotLeaves E.codec (slotComputed T trie state a))))

variable {L : SparseTrieLaws E} {T : FullState E.codec}

/-! ## The storage pass -/

theorem slotLeaves_zero : slotLeaves E.codec (fun _ => 0) = fun _ => none := by
  funext s
  simp [slotLeaves, slotLeaf]

theorem updateSlot_storage {t t' : E.trie.StorageTrie} {m : B256 → Option Bytes} {e : B256 × U256}
    (ht : L.Storage t m) (h : updateSlot E t e = .ok t') :
    L.Storage t' (Function.update m e.1 (slotLeaf E.codec e.2)) := by
  simp only [updateSlot] at h
  simp only [slotLeaf]
  split_ifs at h ⊢ with hv
  · exact L.removeLeaf _ _ _ _ ht h
  · exact L.updateLeaf _ _ _ _ _ ht h

/-- a worker's storage trie reveals the account's slots with the update applied -/
theorem updateStorageTrie_storage {storage : HashedStorage} {t : Option E.trie.StorageTrie} {t' : E.trie.StorageTrie}
    {slots : B256 → U256} (ht : ∀ s, t = some s → L.Storage s (slotLeaves E.codec slots))
    (h : updateStorageTrie E storage t = .ok t') :
    L.Storage t' (slotLeaves E.codec (storage.applied (if t.isSome then slots else fun _ => 0))) := by
  have hstart : L.Storage (t.getD E.trie.revealedEmpty)
      (slotLeaves E.codec (if t.isSome then slots else fun _ => 0)) := by
    cases t with
    | none => exact slotLeaves_zero ▸ L.revealedEmpty
    | some s => exact ht s rfl
  generalize (if t.isSome then slots else fun _ => 0) = start at hstart ⊢
  simp only [updateStorageTrie] at h
  have hwiped : ∃ t₁, L.Storage t₁ (slotLeaves E.codec fun s => if storage.wiped then 0 else start s) ∧
      (sortedEntries storage.storage).foldlM (updateSlot E) t₁ = .ok t' := by
    by_cases hw : storage.wiped = true
    · simp only [hw, if_true] at h ⊢
      cases hwipe : E.trie.wipe (t.getD E.trie.revealedEmpty) with
      | error error => rw [hwipe] at h; cases h
      | ok t₁ =>
        rw [hwipe] at h
        exact ⟨t₁, slotLeaves_zero ▸ L.wipe _ _ _ hstart hwipe, h⟩
    · simp only [hw, if_false, Bool.false_eq_true] at h ⊢
      exact ⟨_, hstart, h⟩
  obtain ⟨t₁, ht₁, hfold⟩ := hwiped
  obtain ⟨m', hm', hvalue, hother⟩ := Writes.foldlM_writes L.Storage
    (fun e => slotLeaf E.codec e.2) (slotLeaves E.codec fun s => if storage.wiped then 0 else start s)
    Writes.entries_nodup (fun s s' m e _ hs _ hok => updateSlot_storage hs hok) (fun _ _ => rfl) ht₁ hfold
  have heq : m' = slotLeaves E.codec (storage.applied start) := by
    funext s
    simp only [slotLeaves, HashedStorage.applied]
    cases hg : storage.storage.get s with
    | none => exact hother s (Writes.not_mem_entries.2 hg)
    | some v => exact hvalue (s, v) (Writes.mem_entries.2 hg)
  exact heq ▸ hm'

/-- the storage tries of distinct accounts are all taken from the trie they start in -/
theorem takeStorageTries_eq {l : List (B256 × HashedStorage)} (hnodup : (l.map Prod.fst).Nodup)
    (trie : E.trie.StateTrie) :
    (takeStorageTries E l trie).1 = l.map (fun e => (e.1, e.2, E.trie.storageTrieMut trie e.1)) ∧
      (∀ b, E.trie.storageTrieMut (takeStorageTries E l trie).2 b =
        if b ∈ l.map Prod.fst then none else E.trie.storageTrieMut trie b) ∧
      ∀ m, L.State trie m → L.State (takeStorageTries E l trie).2 m := by
  induction l generalizing trie with
  | nil => exact ⟨rfl, fun b => by simp [takeStorageTries], fun m hm => hm⟩
  | cons e l ih =>
    obtain ⟨a, storage⟩ := e
    rw [List.map_cons, List.nodup_cons] at hnodup
    obtain ⟨hlist, hmut, hstate⟩ := ih hnodup.2 (E.trie.takeStorageTrie trie a).2
    refine ⟨?_, ?_, ?_⟩
    · change (a, storage, (E.trie.takeStorageTrie trie a).1) :: _ = _
      rw [hlist, L.take, List.map_cons]
      congr 1
      refine List.map_congr_left fun x hx => ?_
      have hne : x.1 ≠ a := fun heq => hnodup.1 (List.mem_map.2 ⟨x, hx, heq⟩)
      rw [L.take_mut, if_neg hne]
    · intro b
      change E.trie.storageTrieMut (takeStorageTries E l (E.trie.takeStorageTrie trie a).2).2 b = _
      rw [hmut, L.take_mut, List.map_cons]
      by_cases hb : b = a
      · subst hb
        simp
      · by_cases hl : b ∈ l.map Prod.fst
        · rw [if_pos hl, if_pos (List.mem_cons_of_mem _ hl)]
        · rw [if_neg hl, if_neg hb, if_neg fun hmem => (List.mem_cons.1 hmem).elim hb hl]
    · intro m hm
      exact hstate m (L.take_state _ _ _ hm)

/-- the storage tries delivered are the ones put back -/
theorem insertStorageTries_eq {l : List (Except String (B256 × E.trie.StorageTrie))} {trie trie' : E.trie.StateTrie}
    (h : insertStorageTries E l trie = .ok trie') :
    (∀ r ∈ l, ∃ p, r = .ok p) ∧
      (∀ b, (∃ s, .ok (b, s) ∈ l ∧ E.trie.storageTrieMut trie' b = some s) ∨
        (∀ s, .ok (b, s) ∉ l) ∧ E.trie.storageTrieMut trie' b = E.trie.storageTrieMut trie b) ∧
      ∀ m, L.State trie m → L.State trie' m := by
  induction l generalizing trie with
  | nil =>
    cases h
    exact ⟨by simp, fun b => Or.inr ⟨by simp, rfl⟩, fun m hm => hm⟩
  | cons r l ih =>
    cases r with
    | error error => cases h
    | ok p =>
      obtain ⟨a, s⟩ := p
      obtain ⟨hok, hmut, hstate⟩ := ih h
      refine ⟨?_, ?_, fun m hm => hstate m (L.insert_state _ _ _ _ hm)⟩
      · intro r hr
        rcases List.mem_cons.1 hr with rfl | hr
        · exact ⟨_, rfl⟩
        · exact hok r hr
      · intro b
        rcases hmut b with ⟨s', hs', heq⟩ | ⟨hnone, heq⟩
        · exact Or.inl ⟨s', List.mem_cons_of_mem _ hs', heq⟩
        · rw [L.insert_mut] at heq
          by_cases hb : b = a
          · subst hb
            rw [if_pos rfl] at heq
            exact Or.inl ⟨s, List.mem_cons_self .., heq⟩
          · rw [if_neg hb] at heq
            refine Or.inr ⟨fun s' hs' => ?_, heq⟩
            rcases List.mem_cons.1 hs' with hhead | htail
            · cases hhead
              exact hb rfl
            · exact hnone s' htail

/-! ## The account pass -/

/-- the storage tries that the account pass finds: one for every account with a storage update -/
structure Stored (L : SparseTrieLaws E) (slots : B256 → B256 → U256) (updated : B256 → Prop) (trie : E.trie.StateTrie) :
    Prop where
  storage : ∀ a s, E.trie.storageTrieMut trie a = some s → L.Storage s (slotLeaves E.codec (slots a))
  updated : ∀ a, updated a → E.trie.storageTrieMut trie a ≠ none

theorem accountStorageRoot_eq (hT : Rooted L T) {trie : E.trie.StateTrie} {slots : B256 → B256 → U256}
    {updated : B256 → Prop} (hstored : Stored L slots updated trie) (hslots : ∀ a, ¬ updated a → slots a = T.slot a)
    {m : B256 → Option Bytes} (hm : L.State trie m) {a : B256} (ha : m a = accountLeaves T a) {r : B256}
    (h : accountStorageRoot E trie a = .ok r)
    (habsent : E.trie.getAccountValue trie a = none → m a = none) :
    r = L.rootOf (slotLeaves E.codec (slots a)) := by
  simp only [accountStorageRoot] at h
  cases hs : E.trie.storageTrieMut trie a with
  | some s =>
    rw [hs] at h
    rw [← Except.ok.inj h]
    exact L.storageRoot _ _ (hstored.storage a s hs)
  | none =>
    rw [hs] at h
    rw [hslots a fun hu => hstored.updated a hu hs]
    cases hv : E.trie.getAccountValue trie a with
    | some value =>
      simp only [hv] at h
      have hleaf := ha.symm.trans (L.getAccountValue _ _ _ _ hm hv)
      obtain ⟨x, hx, rfl⟩ := Option.map_eq_some_iff.1 hleaf
      rw [T.account_codec a x hx] at h
      rw [← Except.ok.inj h]
      exact hT.root a x hx
    | none =>
      simp only [hv] at h
      have hnone : T.account a = none := Option.map_eq_none_iff.1 (ha.symm.trans (habsent hv))
      rw [← Except.ok.inj h, hT.absent a hnone, ← L.rootOf_empty]
      congr 1

/-- one account written -/
theorem updateAccount_state (hT : Rooted L T) {slots : B256 → B256 → U256} {updated : B256 → Prop}
    (hslots : ∀ a, ¬ updated a → slots a = T.slot a) {trie trie' : E.trie.StateTrie} {m : B256 → Option Bytes}
    {e : B256 × Option Account} (hstored : Stored L slots updated trie) (hm : L.State trie m)
    (ha : m e.1 = accountLeaves T e.1) (h : updateAccount E trie e = .ok trie') :
    L.State trie' (Function.update m e.1 (writtenLeaf E (L.rootOf (slotLeaves E.codec (slots e.1))) e.2)) ∧
      Stored L slots updated trie' := by
  simp only [updateAccount] at h
  cases hr : accountStorageRoot E trie e.1 with
  | error error => rw [hr] at h; cases h
  | ok r =>
    rw [hr] at h
    have hkeep : (∀ b, E.trie.storageTrieMut trie' b = E.trie.storageTrieMut trie b) →
        Stored L slots updated trie' := by
      intro hmut
      refine ⟨fun a s hs => hstored.storage a s ((hmut a).symm.trans hs), fun a hu hn => ?_⟩
      exact hstored.updated a hu ((hmut a).symm.trans hn)
    change (if E.isEmpty (e.2.getD ⟨0, 0, none⟩) ∧ r = E.codec.emptyRootHash then _ else _) = _ at h
    simp only [writtenLeaf]
    split_ifs at h with hempty
    · obtain ⟨hstate, habsent, hmut⟩ := L.remove _ _ _ _ hm h
      rw [← accountStorageRoot_eq hT hstored hslots hm ha hr habsent]
      simp only [if_pos hempty]
      exact ⟨hstate, hkeep hmut⟩
    · obtain ⟨hstate, habsent, hmut⟩ := L.update _ _ _ _ _ hm h
      rw [← accountStorageRoot_eq hT hstored hslots hm ha hr habsent]
      simp only [if_neg hempty]
      exact ⟨hstate, hkeep hmut⟩

theorem deliver_ok {a b : B256} {storage : HashedStorage} {t : Option E.trie.StorageTrie} {s : E.trie.StorageTrie} :
    deliver E (a, storage, t) = .ok (b, s) ↔ a = b ∧ updateStorageTrie E storage t = .ok s := by
  simp only [deliver]
  cases hu : updateStorageTrie E storage t with
  | error error =>
    refine ⟨fun h => ?_, fun h => ?_⟩
    · cases h
    · cases h.2
  | ok s' =>
    refine ⟨fun h => ?_, fun h => ?_⟩
    · cases h
      exact ⟨rfl, rfl⟩
    · cases h.2
      rw [h.1]
      rfl

/-- the trie that the storage pass leaves to the account pass -/
theorem storage_pass {trie trie' : E.trie.StateTrie} (hreveal : Reveals L T trie) {sched : Schedule}
    {state : HashedPostState}
    (h : insertStorageTries E
      (sched.arrival ((takeStorageTries E (Writes.entries sched.order state.storages) trie).1.map (deliver E)))
      (takeStorageTries E (Writes.entries sched.order state.storages) trie).2 = .ok trie') :
    L.State trie' (accountLeaves T) ∧
      Stored L (slotComputed T trie state) (fun a => state.storages.get a ≠ none) trie' := by
  obtain ⟨htaken, htakeMut, htakeState⟩ := takeStorageTries_eq (L := L)
    (Writes.entries_nodup (o := sched.order) (m := state.storages)) trie
  obtain ⟨hok, hmut, hstate⟩ := insertStorageTries_eq (L := L) h
  -- a delivery is the work on one entry of the storages map
  have hmem : ∀ r, r ∈ sched.arrival ((takeStorageTries E (Writes.entries sched.order state.storages) trie).1.map
      (deliver E)) ↔ ∃ a storage, state.storages.get a = some storage ∧
        deliver E (a, storage, E.trie.storageTrieMut trie a) = r := by
    intro r
    rw [(sched.arrival_perm _).mem_iff, htaken, List.map_map, List.mem_map]
    exact ⟨fun ⟨e, he, hr⟩ => ⟨e.1, e.2, Writes.mem_entries.1 he, hr⟩,
      fun ⟨a, storage, hs, hr⟩ => ⟨(a, storage), Writes.mem_entries.2 hs, hr⟩⟩
  refine ⟨hstate _ (htakeState _ hreveal.accounts), ?_, ?_⟩
  · intro a s hs
    simp only [slotComputed]
    rcases hmut a with ⟨s', hs', heq⟩ | ⟨hnone, heq⟩
    · obtain ⟨b, storage, hstorage, hdeliver⟩ := (hmem _).1 hs'
      obtain ⟨rfl, hu⟩ := deliver_ok.1 hdeliver
      rw [heq] at hs
      cases hs
      rw [hstorage]
      exact updateStorageTrie_storage (hreveal.storages b) hu
    · rw [heq, htakeMut] at hs
      split_ifs at hs with hentry
      rw [Writes.not_mem_entries.1 hentry]
      exact hreveal.storages a s hs
  · intro a ha hnone
    obtain ⟨storage, hstorage⟩ := Option.ne_none_iff_exists'.1 ha
    have hin := (hmem _).2 ⟨a, storage, hstorage, rfl⟩
    obtain ⟨⟨b, s⟩, hdeliver⟩ := hok _ hin
    obtain ⟨rfl, -⟩ := deliver_ok.1 hdeliver
    rcases hmut a with ⟨s', -, heq⟩ | ⟨hnot, -⟩
    · rw [heq] at hnone
      cases hnone
    · exact hnot s (hdeliver ▸ hin)

/-- **The computed root.** Whatever is revealed, and in whatever order the workers deliver: a root that is answered is
the root of the leaves computed. -/
theorem calculateStateRoot_eq (hT : Rooted L T) {trie : E.trie.StateTrie} (hreveal : Reveals L T trie)
    {sched : Schedule} {state : HashedPostState} {r : B256} (h : calculateStateRoot E sched trie state = .ok r) :
    r = L.rootOf (leafComputed L T trie state) := by
  simp only [calculateStateRoot] at h
  cases hins : insertStorageTries E
      (sched.arrival ((takeStorageTries E (Writes.entries sched.order state.storages) trie).1.map (deliver E)))
      (takeStorageTries E (Writes.entries sched.order state.storages) trie).2 with
  | error error => simp only [hins] at h; cases h
  | ok trie₂ =>
    simp only [hins] at h
    obtain ⟨hstate, hstored⟩ := storage_pass hreveal hins
    cases hfold : (sortedEntries state.accounts).foldlM (updateAccount E) trie₂ with
    | error error =>
      change (sortedEntries state.accounts).foldlM (updateAccount E) trie₂ >>= _ = _ at h
      rw [hfold] at h
      cases h
    | ok trie₃ =>
      change (sortedEntries state.accounts).foldlM (updateAccount E) trie₂ >>= _ = _ at h
      rw [hfold] at h
      have hslots : ∀ a, ¬ state.storages.get a ≠ none → slotComputed T trie state a = T.slot a := by
        intro a ha
        simp only [slotComputed]
        rw [not_not.1 ha]
        rfl
      obtain ⟨m', ⟨hm', -⟩, hvalue, hother⟩ := Writes.foldlM_writes
        (fun t m => L.State t m ∧
          Stored L (slotComputed T trie state) (fun a => state.storages.get a ≠ none) t)
        (fun e => writtenLeaf E (L.rootOf (slotLeaves E.codec (slotComputed T trie state e.1))) e.2)
        (accountLeaves T) Writes.entries_nodup
        (fun s s' m e _ hs hm hok => updateAccount_state hT hslots hs.2 hs.1 hm hok) (fun _ _ => rfl)
        ⟨hstate, hstored⟩ hfold
      rw [L.root _ _ _ hm' h]
      congr 1
      funext a
      simp only [leafComputed]
      cases hg : state.accounts.get a with
      | none => exact hother a (Writes.not_mem_entries.2 hg)
      | some account => exact hvalue (a, account) (Writes.mem_entries.2 hg)

/-! ## When the computed root is right -/

/-- a storage update whose outcome does not depend on slots that the reveal lacks: the account's storage trie is
revealed, or wiped, or every slot that the account has is written -/
def StorageFits (T : FullState E.codec) (trie : E.trie.StateTrie) (a : B256) (storage : HashedStorage) : Prop :=
  storage.wiped = true ∨ E.trie.storageTrieMut trie a ≠ none ∨ ∀ s, T.slot a s ≠ 0 → storage.storage.get s ≠ none

/-- the storage of a deleted account ends empty: what is written is zero, and what is there is not revealed, or wiped,
or written -/
def Cleared (T : FullState E.codec) (trie : E.trie.StateTrie) (state : HashedPostState) (a : B256) : Prop :=
  match state.storages.get a with
  | none => T.slot a = fun _ => 0
  | some storage =>
    (∀ s v, storage.storage.get s = some v → v = 0) ∧
      (storage.wiped = true ∨ E.trie.storageTrieMut trie a = none ∨
        ∀ s, T.slot a s ≠ 0 → storage.storage.get s ≠ none)

/-- the update of the account at `a` fits the reveal -/
def Fits (T : FullState E.codec) (trie : E.trie.StateTrie) (state : HashedPostState) (a : B256) : Prop :=
  match state.accounts.get a with
  | some (some _) => ∀ storage, state.storages.get a = some storage → StorageFits T trie a storage
  | some none => Cleared T trie state a
  | none => T.account a = none ∨ slotAfter T state a = T.slot a

/-- the codecs tell slot values and storage roots apart, and the default account is empty -/
structure CodecLaws (E : Env) : Prop where
  slot : ∀ v, E.codec.decodeU256 (E.codec.encodeU256 v) = some v
  account : ∀ x y, E.codec.encodeTrieAccount x = E.codec.encodeTrieAccount y → x.storageRoot = y.storageRoot
  into : ∀ account root, (E.intoTrieAccount account root).storageRoot = root
  default_empty : E.isEmpty ⟨0, 0, none⟩ = true

/-- the contents whose roots are compared -/
inductive Content (L : SparseTrieLaws E) (T : FullState E.codec) (trie : E.trie.StateTrie) (state : HashedPostState) :
    (B256 → Option Bytes) → Prop
  | empty : Content L T trie state fun _ => none
  | before (a) : Content L T trie state (slotLeaves E.codec (T.slot a))
  | after (a) : Content L T trie state (slotLeaves E.codec (slotAfter T state a))
  | computed (a) : Content L T trie state (slotLeaves E.codec (slotComputed T trie state a))
  | leavesAfter : Content L T trie state (leafAfter L T state)
  | leavesComputed : Content L T trie state (leafComputed L T trie state)

/-- these contents have no hash collision among them -/
def NoCollision (L : SparseTrieLaws E) (T : FullState E.codec) (trie : E.trie.StateTrie) (state : HashedPostState) :
    Prop :=
  ∀ m m', Content L T trie state m → Content L T trie state m' → L.rootOf m = L.rootOf m' → m = m'

theorem slotLeaves_injective (hcodec : CodecLaws E) {f g : B256 → U256}
    (h : slotLeaves E.codec f = slotLeaves E.codec g) : f = g := by
  funext s
  have hs : slotLeaf E.codec (f s) = slotLeaf E.codec (g s) := congrFun h s
  simp only [slotLeaf] at hs
  by_cases hf : f s = 0
  · by_cases hg : g s = 0
    · rw [hf, hg]
    · rw [if_pos hf, if_neg hg] at hs
      cases hs
  · by_cases hg : g s = 0
    · rw [if_neg hf, if_pos hg] at hs
      cases hs
    · rw [if_neg hf, if_neg hg] at hs
      have hd := congrArg E.codec.decodeU256 (Option.some.inj hs)
      rw [hcodec.slot, hcodec.slot] at hd
      exact Option.some.inj hd

variable {trie : E.trie.StateTrie} {state : HashedPostState}

/-- two storage contents with one root are the same slots -/
theorem NoCollision.slots (hroot : NoCollision L T trie state) (hcodec : CodecLaws E) {f g : B256 → U256}
    (hf : Content L T trie state (slotLeaves E.codec f)) (hg : Content L T trie state (slotLeaves E.codec g))
    (h : L.rootOf (slotLeaves E.codec f) = L.rootOf (slotLeaves E.codec g)) : f = g :=
  slotLeaves_injective hcodec (hroot _ _ hf hg h)

/-- the root of the empty trie is the root of no slots only -/
theorem NoCollision.empty_iff (hroot : NoCollision L T trie state) (hcodec : CodecLaws E) {f : B256 → U256}
    (hf : Content L T trie state (slotLeaves E.codec f)) :
    L.rootOf (slotLeaves E.codec f) = E.codec.emptyRootHash ↔ f = fun _ => 0 := by
  rw [← L.rootOf_empty]
  constructor
  · intro h
    refine slotLeaves_injective hcodec ?_
    rw [slotLeaves_zero]
    exact hroot _ _ hf Content.empty h
  · rintro rfl
    rw [slotLeaves_zero]

/-- the slots computed for an update are the right ones exactly when it fits the reveal -/
theorem slotComputed_iff (a : B256) :
    slotComputed T trie state a = slotAfter T state a ↔
      ∀ storage, state.storages.get a = some storage → StorageFits T trie a storage := by
  simp only [slotComputed, slotAfter]
  cases hs : state.storages.get a with
  | none => simp
  | some storage =>
    simp only [Option.elim_some, Option.some.injEq, forall_eq']
    simp only [StorageFits]
    by_cases hrev : E.trie.storageTrieMut trie a = none
    · rw [hrev]
      constructor
      · intro h
        by_cases hw : storage.wiped = true
        · exact Or.inl hw
        · refine Or.inr (Or.inr fun s hne hnone => hne ?_)
          have hat := congrFun h s
          simp only [HashedStorage.applied, hnone, hw, Option.getD_none] at hat
          exact hat.symm
      · rintro (hw | hne | hall)
        · funext s
          simp [HashedStorage.applied, hw]
        · exact absurd rfl hne
        · funext s
          simp only [HashedStorage.applied]
          cases hg : storage.storage.get s with
          | some v => rfl
          | none =>
            have hzero : T.slot a s = 0 := by
              by_contra hne
              exact hall s hne hg
            simp [hzero]
    · obtain ⟨t, ht⟩ := Option.ne_none_iff_exists'.1 hrev
      simp [ht]

/-- the slots computed for a deleted account are none exactly when its storage ends empty -/
theorem slotComputed_empty_iff (a : B256) :
    slotComputed T trie state a = (fun _ => 0) ↔ Cleared T trie state a := by
  simp only [slotComputed, Cleared]
  cases hs : state.storages.get a with
  | none => exact Iff.rfl
  | some storage =>
    simp only [Option.elim_some]
    constructor
    · intro h
      refine ⟨fun s v hv => ?_, ?_⟩
      · have hat := congrFun h s
        simpa [HashedStorage.applied, hv] using hat
      · by_cases hw : storage.wiped = true
        · exact Or.inl hw
        · by_cases hrev : E.trie.storageTrieMut trie a = none
          · exact Or.inr (Or.inl hrev)
          · obtain ⟨t, ht⟩ := Option.ne_none_iff_exists'.1 hrev
            refine Or.inr (Or.inr fun s hne hnone => hne ?_)
            have hat := congrFun h s
            simpa [HashedStorage.applied, hnone, hw, ht] using hat
    · rintro ⟨hzero, hcase⟩
      funext s
      simp only [HashedStorage.applied]
      cases hg : storage.storage.get s with
      | some v => exact hzero s v hg
      | none =>
        rcases hcase with hw | hrev | hall
        · simp [hw]
        · simp [hrev]
        · have hslot : T.slot a s = 0 := by
            by_contra hne
            exact hall s hne hg
          simp only [Option.getD_none]
          split_ifs <;> simp [hslot]

/-- the leaf computed for an account is the right one exactly when its update fits the reveal -/
theorem leafComputed_iff (hcodec : CodecLaws E) (hT : Rooted L T) (hroot : NoCollision L T trie state) (a : B256) :
    leafComputed L T trie state a = leafAfter L T state a ↔ Fits T trie state a := by
  simp only [leafComputed, leafAfter, Fits]
  cases hacc : state.accounts.get a with
  | none =>
    simp only [Option.elim_none]
    simp only [accountLeaves]
    cases hx : T.account a with
    | none => simp
    | some x =>
      simp only [Option.map_some, Option.some.injEq, reduceCtorEq, false_or]
      constructor
      · intro h
        have hr := hcodec.account _ _ h
        simp only at hr
        rw [hT.root a x hx] at hr
        exact (hroot.slots hcodec (Content.before a) (Content.after a) hr).symm
      · intro h
        rw [h, ← hT.root a x hx]
  | some entry =>
    simp only [Option.elim_some]
    cases entry with
    | none =>
      rw [← slotComputed_empty_iff, ← hroot.empty_iff hcodec (Content.computed a)]
      simp only [writtenLeaf]
      simp only [Option.getD_none, hcodec.default_empty, true_and]
      split_ifs with hr
      · simp [hr]
      · simp [hr]
    | some account =>
      rw [← slotComputed_iff]
      simp only [writtenLeaf]
      simp only [Option.getD_some]
      constructor
      · intro h
        split_ifs at h with hc ha ha
        · rw [(hroot.empty_iff hcodec (Content.computed a)).1 hc.2, ha.2]
        · have hr := hcodec.account _ _ (Option.some.inj h)
          rw [hcodec.into, hcodec.into] at hr
          exact hroot.slots hcodec (Content.computed a) (Content.after a) hr
      · intro h
        have hempty := hroot.empty_iff hcodec (Content.after a)
        rw [h]
        by_cases ha : E.isEmpty account = true ∧ slotAfter T state a = fun _ => 0
        · rw [if_pos ha, if_pos ⟨ha.1, hempty.2 ha.2⟩]
        · rw [if_neg ha, if_neg fun hc => ha ⟨hc.1, hempty.1 hc.2⟩]

/-- **Computed state roots.** For every full state, every reveal of a part of it, every post state and every schedule
of the workers: a root that is answered is the root of the state with the post state applied exactly when every
account's update fits the reveal. -/
theorem state_root_right_iff (L : SparseTrieLaws E) (hcodec : CodecLaws E) (T : FullState E.codec) (hT : Rooted L T)
    (trie : E.trie.StateTrie) (hreveal : Reveals L T trie) (sched : Schedule) (state : HashedPostState)
    (hroot : NoCollision L T trie state) (r : B256) (h : calculateStateRoot E sched trie state = .ok r) :
    r = rootAfter L T state ↔ ∀ a, Fits T trie state a := by
  rw [calculateStateRoot_eq hT hreveal h]
  simp only [rootAfter]
  constructor
  · intro heq a
    have hleaves := hroot _ _ Content.leavesComputed Content.leavesAfter heq
    exact (leafComputed_iff hcodec hT hroot a).1 (congrFun hleaves a)
  · intro hfits
    congr 1
    funext a
    exact (leafComputed_iff hcodec hT hroot a).2 (hfits a)

/-! ## A storage trie that is not revealed -/

theorem spell_foldl (x : ℕ) (k n : ℕ) :
    (((List.range k).reverse.map fun i => UInt8.ofNat (x / 256 ^ i)).foldl (fun n byte => n * 256 + byte.toNat) n) =
      n * 256 ^ k + x % 256 ^ k := by
  induction k generalizing n with
  | zero => simp [Nat.mod_one]
  | succ k ih =>
    rw [List.range_succ, List.reverse_append, List.reverse_singleton, List.singleton_append, List.map_cons,
      List.foldl_cons, ih, Nat.mod_pow_succ]
    simp only [UInt8.toNat_ofNat']
    ring

/-- the big-endian bytes of a word spell it -/
theorem spell_beBytes (x : B256) : spell (beBytes x) = x := by
  simp only [spell, beBytes]
  rw [spell_foldl]
  refine BitVec.eq_of_toNat_eq ?_
  have hx := x.isLt
  rw [BitVec.toNat_ofNat, Nat.zero_mul, Nat.zero_add, show 256 ^ (256 / 8) = 2 ^ 256 from by norm_num, Nat.mod_mod,
    Nat.mod_eq_of_lt hx]

/-- an account is its storage root -/
def rootCodec : StateCodec :=
  { smallCodec with
    decodeTrieAccount := fun bytes => some ⟨0, 0, spell bytes, 0⟩
    encodeTrieAccount := fun account => beBytes account.storageRoot
    decodeU256 := fun bytes => some (spell bytes)
    encodeU256 := beBytes }

/-- one more than the number that a leaf spells; 0 for no leaf -/
def leafNumber (leaf : Option Bytes) : ℕ := leaf.elim 0 fun bytes => (spell bytes).toNat + 1

/-- a root that tells apart the leaves at keys 1 and 2 -/
def pairRoot (m : B256 → Option Bytes) : B256 := BitVec.ofNat 256 (Nat.pair (leafNumber (m 1)) (leafNumber (m 2)))

/-- tries that are revealed in full or not at all -/
def pairTrie : SparseTrie where
  StateTrie := FMap B256 Bytes × FMap B256 (FMap B256 Bytes)
  StorageTrie := FMap B256 Bytes
  new := (∅, ∅)
  revealWitness trie _ _ := .ok trie
  getAccountValue trie a := trie.1.get a
  getStorageSlotValue trie a s := (trie.2.get a).bind (·.get s)
  takeStorageTrie trie a := (trie.2.get a, (trie.1, trie.2.del a))
  insertStorageTrie trie a s := (trie.1, trie.2.set a s)
  storageTrieMut trie a := trie.2.get a
  updateAccountLeaf trie a v := .ok (trie.1.set a v, trie.2)
  removeAccountLeaf trie a := .ok (trie.1.del a, trie.2)
  root trie := .ok (pairRoot trie.1.get)
  revealedEmpty := ∅
  wipe _ := .ok ∅
  updateLeaf trie s v := .ok (trie.set s v)
  removeLeaf trie s := .ok (trie.del s)
  storageRoot trie := pairRoot trie.get

def pairEnv : Env := { smallEnv with codec := rootCodec, trie := pairTrie }

theorem get_set_update {V : Type} (m : FMap B256 V) (k : B256) (v : V) :
    (m.set k v).get = Function.update m.get k (some v) := by
  funext k'
  rw [FMap.get_set, Function.update_apply]

theorem get_del_update {V : Type} (m : FMap B256 V) (k : B256) : (m.del k).get = Function.update m.get k none := by
  funext k'
  rw [FMap.get_del, Function.update_apply]

theorem get_single {V : Type} (k k' : B256) (v : V) :
    ((∅ : FMap B256 V).set k v).get k' = if k' = k then some v else none := by
  rw [FMap.get_set, FMap.get_empty]

def pairLaws : SparseTrieLaws pairEnv where
  rootOf := pairRoot
  Storage trie m := FMap.get trie = m
  State trie m := FMap.get trie.1 = m
  rootOf_empty := by decide +kernel
  revealedEmpty := by funext s; exact FMap.get_empty s
  wipe t t' m _ h := by cases h; funext s; exact FMap.get_empty s
  updateLeaf t t' m k v ht h := by cases h; cases ht; exact get_set_update t k v
  removeLeaf t t' m k ht h := by cases h; cases ht; exact get_del_update t k
  storageRoot t m ht := by cases ht; rfl
  take t a := rfl
  take_mut t a b := FMap.get_del t.2 a b
  take_state t a m ht := ht
  insert_mut t a s b := FMap.get_set t.2 a b s
  insert_state t a s m ht := ht
  getAccountValue t m a v ht h := by cases ht; exact h
  update t t' m a v ht h := by
    cases h; cases ht
    exact ⟨get_set_update t.1 a v, fun hn => hn, fun _ => rfl⟩
  remove t t' m a ht h := by
    cases h; cases ht
    exact ⟨get_del_update t.1 a, fun hn => hn, fun _ => rfl⟩
  root t m r ht h := by cases h; cases ht; rfl

theorem pairCodecLaws : CodecLaws pairEnv where
  slot v := congrArg some (spell_beBytes v)
  account x y h := by
    have hs := congrArg spell (show beBytes x.storageRoot = beBytes y.storageRoot from h)
    rw [spell_beBytes, spell_beBytes] at hs
    exact hs
  into account root := rfl
  default_empty := rfl

/-- the account with 5 in slot 1 -/
def oneAccount : TrieAccount := ⟨0, 0, pairRoot (slotLeaves rootCodec fun s => if s = 1 then 5 else 0), 0⟩

/-- one account, at 1, with 5 in slot 1 -/
def oneSlot : FullState pairEnv.codec where
  account a := if a = 1 then some oneAccount else none
  slot a s := if a = 1 ∧ s = 1 then 5 else 0
  account_codec a x h := by
    split_ifs at h
    rw [← Option.some.inj h]
    change some (TrieAccount.mk 0 0 (spell (beBytes oneAccount.storageRoot)) 0) = _
    rw [spell_beBytes]
    rfl
  slot_codec a s := congrArg some (spell_beBytes _)

/-- write 7 to slot 2 of the account -/
def writeSlot : HashedPostState where
  accounts := (∅ : FMap B256 (Option Account)).set 1 (some ⟨1, 0, none⟩)
  storages := (∅ : FMap B256 HashedStorage).set 1 ⟨false, (∅ : FMap B256 U256).set 2 7⟩

/-- the account revealed, with or without its storage -/
def oneSlotReveal (storage : Bool) : pairEnv.trie.StateTrie :=
  ((∅ : FMap B256 Bytes).set 1 (beBytes oneAccount.storageRoot),
    if storage then (∅ : FMap B256 (FMap B256 Bytes)).set 1 ((∅ : FMap B256 Bytes).set 1 (beBytes (5 : B256))) else ∅)

theorem oneSlot_rooted : Rooted pairLaws oneSlot where
  root a x h := by
    change (if a = 1 then some oneAccount else none) = some x at h
    split_ifs at h with ha
    have hslot : oneSlot.slot a = fun s => if s = 1 then 5 else 0 := by
      funext s
      exact if_congr (and_iff_right ha) rfl rfl
    rw [← Option.some.inj h, hslot]
    rfl
  absent a h := by
    change (if a = 1 then some oneAccount else none) = none at h
    split_ifs at h with ha
    funext s
    exact if_neg fun hs => ha hs.1

theorem oneSlot_reveals (storage : Bool) : Reveals pairLaws oneSlot (oneSlotReveal storage) where
  accounts := by
    funext a
    change ((∅ : FMap B256 Bytes).set 1 _).get a =
      (if a = 1 then some oneAccount else none).map rootCodec.encodeTrieAccount
    rw [get_single]
    split_ifs <;> rfl
  storages a s h := by
    cases storage with
    | false => exact absurd ((FMap.get_empty (V := FMap B256 Bytes) a).symm.trans h) (by simp)
    | true =>
      have hget := (get_single 1 a ((∅ : FMap B256 Bytes).set 1 (beBytes (5 : B256)))).symm.trans h
      split_ifs at hget with ha
      rw [← Option.some.inj hget]
      funext k
      refine (get_single 1 k _).trans ?_
      change _ = slotLeaf rootCodec (if a = 1 ∧ k = 1 then 5 else 0)
      by_cases hk : k = 1
      · rw [if_pos hk, if_pos ⟨ha, hk⟩]
        rfl
      · rw [if_neg hk, if_neg fun hc => hk hc.2]
        rfl

/-- leaves at keys 1 and 2 only, each a word below `bound` -/
def Small (bound : ℕ) (m : B256 → Option Bytes) : Prop :=
  ∀ k v, m k = some v → (k = 1 ∨ k = 2) ∧ ∃ w : B256, v = beBytes w ∧ w.toNat < bound

theorem leafNumber_le {bound : ℕ} {m : B256 → Option Bytes} (hm : Small bound m) (k : B256) :
    leafNumber (m k) ≤ bound := by
  simp only [leafNumber]
  cases hk : m k with
  | none => exact Nat.zero_le _
  | some v =>
    obtain ⟨-, w, rfl, hw⟩ := hm k v hk
    rw [Option.elim_some, spell_beBytes]
    exact hw

theorem pair_lt {bound : ℕ} {m : B256 → Option Bytes} (hm : Small bound m) :
    Nat.pair (leafNumber (m 1)) (leafNumber (m 2)) < (bound + 1) ^ 2 :=
  (Nat.pair_lt_max_add_one_sq _ _).trans_le
    (Nat.pow_le_pow_left (Nat.succ_le_succ (max_le (leafNumber_le hm 1) (leafNumber_le hm 2))) 2)

theorem leafNumber_inj {bound : ℕ} {m m' : B256 → Option Bytes} (hm : Small bound m) (hm' : Small bound m') (k : B256)
    (h : leafNumber (m k) = leafNumber (m' k)) : m k = m' k := by
  simp only [leafNumber] at h
  cases hk : m k with
  | none =>
    cases hk' : m' k with
    | none => rfl
    | some v' => rw [hk, hk'] at h; exact absurd h (by simp)
  | some v =>
    cases hk' : m' k with
    | none => rw [hk, hk'] at h; exact absurd h (by simp)
    | some v' =>
      obtain ⟨-, w, rfl, -⟩ := hm k v hk
      obtain ⟨-, w', rfl, -⟩ := hm' k v' hk'
      rw [hk, hk', Option.elim_some, Option.elim_some, spell_beBytes, spell_beBytes] at h
      rw [BitVec.eq_of_toNat_eq (Nat.succ.inj h)]

/-- small contents with one root are one content -/
theorem pairRoot_inj {m m' : B256 → Option Bytes} (hm : Small 200 m) (hm' : Small 200 m')
    (h : pairRoot m = pairRoot m') : m = m' := by
  simp only [pairRoot] at h
  have hlt := pair_lt hm
  have hlt' := pair_lt hm'
  have hpair := congrArg BitVec.toNat h
  rw [BitVec.toNat_ofNat, BitVec.toNat_ofNat, Nat.mod_eq_of_lt (hlt.trans (by norm_num)),
    Nat.mod_eq_of_lt (hlt'.trans (by norm_num)), Nat.pair_eq_pair] at hpair
  funext k
  by_cases hk : k = 1 ∨ k = 2
  · rcases hk with rfl | rfl
    · exact leafNumber_inj hm hm' 1 hpair.1
    · exact leafNumber_inj hm hm' 2 hpair.2
  · have hnone : ∀ m, Small 200 m → m k = none := by
      intro m hm
      by_contra hne
      obtain ⟨v, hv⟩ := Option.ne_none_iff_exists'.1 hne
      exact hk (hm k v hv).1
    rw [hnone m hm, hnone m' hm']

/-- slots 1 and 2 only, with values below 8 -/
def SmallSlots (f : B256 → U256) : Prop := ∀ s, f s ≠ 0 → (s = 1 ∨ s = 2) ∧ (f s).toNat < 8

theorem SmallSlots.leaves {f : B256 → U256} (hf : SmallSlots f) : Small 8 (slotLeaves rootCodec f) := by
  intro k v hk
  simp only [slotLeaves, slotLeaf] at hk
  split_ifs at hk with hz
  exact ⟨(hf k hz).1, f k, (Option.some.inj hk).symm, (hf k hz).2⟩

theorem SmallSlots.root_lt {f : B256 → U256} (hf : SmallSlots f) :
    (pairRoot (slotLeaves rootCodec f)).toNat < 200 := by
  simp only [pairRoot]
  have hlt := pair_lt hf.leaves
  rw [BitVec.toNat_ofNat, Nat.mod_eq_of_lt (hlt.trans (by norm_num))]
  exact hlt.trans (by norm_num)

theorem Small.mono {m : B256 → Option Bytes} (hm : Small 8 m) : Small 200 m := by
  intro k v hk
  obtain ⟨hk', w, hv, hw⟩ := hm k v hk
  exact ⟨hk', w, hv, hw.trans (by norm_num)⟩

theorem oneSlot_smallSlots (a : B256) : SmallSlots (oneSlot.slot a) := by
  intro s hs
  change (if a = 1 ∧ s = 1 then (5 : U256) else 0) ≠ 0 at hs
  change _ ∧ (if a = 1 ∧ s = 1 then (5 : U256) else 0).toNat < 8
  split_ifs at hs ⊢ with h
  · exact ⟨Or.inl h.2, by decide⟩
  · exact absurd rfl hs

theorem writeSlot_storages (a : B256) :
    writeSlot.storages.get a = if a = 1 then some ⟨false, (∅ : FMap B256 U256).set 2 7⟩ else none :=
  get_single 1 a _

theorem writeSlot_accounts (a : B256) :
    writeSlot.accounts.get a = if a = 1 then some (some ⟨1, 0, none⟩) else none :=
  get_single 1 a _

theorem writeSlot_smallSlots (a : B256) (f : B256 → U256) (hf : SmallSlots f) (g : B256 → U256) (hg : SmallSlots g) :
    SmallSlots ((writeSlot.storages.get a).elim f fun storage => storage.applied g) := by
  rw [writeSlot_storages]
  split_ifs
  · have happlied : ∀ s, HashedStorage.applied ⟨false, (∅ : FMap B256 U256).set 2 7⟩ g s = if s = 2 then 7 else g s := by
      intro s
      simp only [HashedStorage.applied]
      rw [get_single]
      by_cases hs : s = 2
      · rw [if_pos hs, if_pos hs]
        rfl
      · rw [if_neg hs, if_neg hs]
        rfl
    intro s hs
    rw [Option.elim_some, happlied] at hs ⊢
    split_ifs at hs ⊢ with h
    · exact ⟨Or.inr h, by decide⟩
    · exact hg s hs
  · exact hf

theorem oneSlot_noCollision (trie : pairEnv.trie.StateTrie) : NoCollision pairLaws oneSlot trie writeSlot := by
  have hzero : SmallSlots fun _ => 0 := fun s hs => absurd rfl hs
  have hafter : ∀ a, SmallSlots (slotAfter oneSlot writeSlot a) := fun a =>
    writeSlot_smallSlots a _ (oneSlot_smallSlots a) _ (oneSlot_smallSlots a)
  have hcomputed : ∀ a, SmallSlots (slotComputed oneSlot trie writeSlot a) := by
    intro a
    refine writeSlot_smallSlots a _ (oneSlot_smallSlots a) _ ?_
    split_ifs
    · exact oneSlot_smallSlots a
    · exact hzero
  have hnone : ∀ a, a ≠ 1 → oneSlot.account a = none := fun a ha => if_neg ha
  have hsmall : ∀ m, Content pairLaws oneSlot trie writeSlot m → Small 200 m := by
    intro m hm
    cases hm with
    | empty => intro k v hk; cases hk
    | before a => exact (oneSlot_smallSlots a).leaves.mono
    | after a => exact (hafter a).leaves.mono
    | computed a => exact (hcomputed a).leaves.mono
    | leavesAfter =>
      intro a v hv
      simp only [leafAfter] at hv
      by_cases ha : a = 1
      · simp only [writeSlot_accounts, if_pos ha] at hv
        rw [if_neg fun hc => absurd hc.1 (by decide)] at hv
        exact ⟨Or.inl ha, _, (Option.some.inj hv).symm, (hafter a).root_lt⟩
      · simp only [writeSlot_accounts, if_neg ha, hnone a ha] at hv
        cases hv
    | leavesComputed =>
      intro a v hv
      simp only [leafComputed] at hv
      by_cases ha : a = 1
      · rw [writeSlot_accounts, if_pos ha, Option.elim_some] at hv
        simp only [writtenLeaf] at hv
        rw [if_neg fun hc => absurd hc.1 (by decide)] at hv
        exact ⟨Or.inl ha, _, (Option.some.inj hv).symm, (hcomputed a).root_lt⟩
      · rw [writeSlot_accounts, if_neg ha, Option.elim_none] at hv
        simp only [accountLeaves] at hv
        rw [hnone a ha] at hv
        cases hv
  exact fun m m' hm hm' h => pairRoot_inj (hsmall m hm) (hsmall m' hm') h

theorem writeSlot_ok (storage : Bool) :
    ∃ r, calculateStateRoot pairEnv sortedSchedule (oneSlotReveal storage) writeSlot = .ok r := by
  have h : ∀ storage, (calculateStateRoot pairEnv sortedSchedule (oneSlotReveal storage) writeSlot).isOk = true := by
    decide +kernel
  cases hr : calculateStateRoot pairEnv sortedSchedule (oneSlotReveal storage) writeSlot with
  | ok r => exact ⟨r, rfl⟩
  | error error =>
    have hok := h storage
    rw [hr] at hok
    cases hok

/-- with its storage trie revealed, the account's update fits and the root is right -/
theorem state_root_right_revealed :
    ∃ r, calculateStateRoot pairEnv sortedSchedule (oneSlotReveal true) writeSlot = .ok r ∧
      r = rootAfter pairLaws oneSlot writeSlot := by
  obtain ⟨r, hr⟩ := writeSlot_ok true
  refine ⟨r, hr, (state_root_right_iff pairLaws pairCodecLaws oneSlot oneSlot_rooted _ (oneSlot_reveals true)
    sortedSchedule writeSlot (oneSlot_noCollision _) r hr).2 ?_⟩
  intro a
  simp only [Fits]
  rw [writeSlot_accounts]
  by_cases ha : a = 1
  · rw [if_pos ha]
    intro storage _
    rw [ha]
    exact Or.inr (Or.inl (by decide))
  · rw [if_neg ha]
    exact Or.inl (if_neg ha)

/-- **An unrevealed storage trie counts as empty.** The account has 5 in slot 1 and the reveal lacks its storage trie;
7 is written to slot 2. The call answers a root, and it is not the root of the state with both slots. -/
theorem state_root_wrong :
    Rooted pairLaws oneSlot ∧ Reveals pairLaws oneSlot (oneSlotReveal false) ∧
      ∃ r, calculateStateRoot pairEnv sortedSchedule (oneSlotReveal false) writeSlot = .ok r ∧
        r ≠ rootAfter pairLaws oneSlot writeSlot := by
  obtain ⟨r, hr⟩ := writeSlot_ok false
  refine ⟨oneSlot_rooted, oneSlot_reveals false, r, hr, ?_⟩
  intro heq
  have hroot := oneSlot_noCollision (oneSlotReveal false)
  rw [calculateStateRoot_eq oneSlot_rooted (oneSlot_reveals false) hr] at heq
  have hleaf := congrFun (hroot _ _ Content.leavesComputed Content.leavesAfter heq) 1
  have hfits := (leafComputed_iff pairCodecLaws oneSlot_rooted hroot 1).1 hleaf
  simp only [Fits] at hfits
  rw [writeSlot_accounts, if_pos rfl] at hfits
  rcases hfits _ (writeSlot_storages 1) with hw | hne | hall
  · cases hw
  · exact hne rfl
  · exact hall 1 (by decide) (get_single 2 1 7)

end StateRoot

end Ress
