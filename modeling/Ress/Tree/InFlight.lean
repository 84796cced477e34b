/-
Unlocked blocks while they are inserted.

The buffer gives out ready blocks: one on its own turn, and after a block that was found valid all its descendants. These
are in flight until they are inserted, and a block whose parent is not there yet goes back to the buffer, which has room
for it. `Underway` says what holds on the way: a block that can be inserted is stored, or in the buffer as it was, or in
flight. None of that depends on the order in which hashes are tried and descendants are connected.

- `Underway.connectBlocks`: the loop over the descendants keeps it, and ends if no insertion is fatal.
- `Underway.onDownloadedBlock`: so does a block on its own turn, if it is not recorded as invalid or cannot be inserted
  in any order. It announces the sync target if that was stored.
-/
import Ress.Tree.BufferSweeps
import Ress.Tree.Connecting
import Ress.Tree.Judging
import Ress.Tree.Reordering
import Ress.Tree.Verdicts

namespace Ress

namespace EngineTree

open BlockBuffer (Aged EmptyAt Frees Holds SameAt)
open StateRoot (StorageTrieMap)
open Writes (Agrees)

variable {E : Env} {t t' : EngineTree E} {sched sched' : StateRoot.Schedule} {W : World} {t₀ : EngineTree E}
  {x : Block × ExecutionWitness} {parked : Option B256} {rest : List B256} {flight : List (Block × ExecutionWitness)}
  {due : Bool}

/-! ## Fatal errors -/

/-- an insertion did not end in a fatal error -/
def NotFatal (E : Env) (result : Except InsertBlockErrorKind InsertPayloadOk) : Prop :=
  ∀ kind, result = .error kind → ∃ text, E.ensureValidationError kind = .ok text

/-- an error of the provider is fatal -/
def ProviderFatal (E : Env) : Prop := ∀ error, ∃ fatal, E.ensureValidationError (.provider error) = .error fatal

theorem NotFatal.same {r r' : Except InsertBlockErrorKind InsertPayloadOk} (h : NotFatal E r') (hfatal : ProviderFatal E)
    (hagrees : Agrees ProviderError r r') : r' = r := by
  rcases hagrees with hsame | ⟨-, kind, hk, error, rfl⟩
  · exact hsame
  · obtain ⟨text, htext⟩ := h _ hk
    obtain ⟨fatal, hfatal⟩ := hfatal error
    cases htext.symm.trans hfatal

/-- none of the insertions since `t₀` ended in a fatal error -/
def NoFatalSince (t₀ t : EngineTree E) : Prop :=
  ∀ i ∈ t.insertions.drop t₀.insertions.length, NotFatal E i.result

theorem NoFatalSince.before (h : NoFatalSince t₀ t') (hcalls : t.insertions <+: t'.insertions) : NoFatalSince t₀ t := by
  intro i hi
  exact h i ((hcalls.drop _).subset hi)

theorem NoFatalSince.last (h : NoFatalSince t₀ t') (hcalls : t₀.insertions <+: t.insertions) {i : Insertion}
    (hi : t'.insertions = t.insertions ++ [i]) : NotFatal E i.result := by
  refine h i ?_
  rw [hi, List.drop_append_of_le_length hcalls.length_le]
  exact List.mem_append_right _ (List.mem_singleton_self i)

/-- a fatal error is among the insertions after the round -/
theorem fatalError_insertion {fatal : InsertBlockFatalError} (h : t.fatalError sched x = some fatal) :
    ∃ i, (t.connectOne sched x).insertions = t.insertions ++ [i] ∧
      ∃ kind, i.result = .error kind ∧ E.ensureValidationError kind = .error fatal := by
  have hi := insertBlock_inserts t sched x.1 (some x.2)
  simp only [fatalError] at h
  simp only [EngineTree.connectOne, connectBlocks]
  cases hr : t.insertBlock sched x.1 (some x.2) with
  | mk result t₁ =>
    rw [hr] at h hi
    cases result with
    | ok result => cases h
    | error kind =>
      simp only at h ⊢
      simp only [onInsertBlockError]
      cases he : E.ensureValidationError kind with
      | ok text => simp [he] at h
      | error fatal' =>
        rw [he] at h
        cases h
        exact ⟨_, hi.insertions, kind, rfl, he⟩

/-- none of the insertions since `t₀` is fatal, so the loop goes on -/
theorem NoFatalSince.continues (h : NoFatalSince t₀ t') (hcalls : t₀.insertions <+: t.insertions)
    (hafter : (t.connectOne sched x).insertions <+: t'.insertions) : t.fatalError sched x = none := by
  cases hfatal : t.fatalError sched x with
  | none => rfl
  | some fatal =>
    obtain ⟨i, hi, kind, hkind, herror⟩ := fatalError_insertion hfatal
    obtain ⟨text, htext⟩ := (h.before hafter).last hcalls hi kind hkind
    cases htext.symm.trans herror

theorem Fails.insertions {b : Block} {kind : InsertBlockErrorKind} {r : Except InsertBlockFatalError PayloadStatus}
    (hf : Fails t b kind r t') : t'.insertions = t.insertions := by
  cases hf with
  | fatal => rfl
  | invalid text _ latestValidHash t₁ hforget =>
    rw [hforget.withCache]
    rfl

theorem lookupInvalid_none {hash : B256} (h : t.invalidHeader hash = none) : t.lookupInvalid hash = none := by
  cases hn : t.lookupInvalid hash with
  | none => rfl
  | some header => cases h.symm.trans (lookupInvalid_some hn)

/-- the insertion of a block on its own turn is among them -/
theorem NoFatalSince.onDownloadedBlock {b : Block} {w : ExecutionWitness}
    (h : NoFatalSince t₀ (t.onDownloadedBlock sched b w).2) (hcalls : t₀.insertions <+: t.insertions)
    (hn : t.lookupInvalid (t.lowestBufferedAncestorOr b.hash) = none) :
    NotFatal E (t.insertBlock sched b (some w)).1 := by
  intro kind hk
  have hi := insertBlock_inserts (t.afterLookup (t.lowestBufferedAncestorOr b.hash)) sched b (some w)
  rw [insertBlock_afterLookup, hk] at hi
  have hafter : (t.onDownloadedBlock sched b w).2.insertions =
      (t.afterInsertion sched (t.lowestBufferedAncestorOr b.hash) b (some w)).insertions := by
    simp only [EngineTree.onDownloadedBlock, checkInvalid_notFound _ hn, insertBlock_afterLookup, hk]
    have hfails := onInsertBlockError_fails (t.afterInsertion sched (t.lowestBufferedAncestorOr b.hash) b (some w)) b kind
    cases he : (t.afterInsertion sched (t.lowestBufferedAncestorOr b.hash) b (some w)).onInsertBlockError b kind with
    | mk answer t₁ =>
      rw [he] at hfails
      cases answer <;> exact hfails.insertions
  exact h.last hcalls (hafter.trans hi.insertions) kind rfl

/-- the history of insertions only grows -/
theorem insertions_keeps (l : List Insertion) : Keeps (E := E) (fun t => l <+: t.insertions) fun _ _ => True where
  cache h := h
  inserts _ hi h := by
    rw [hi.insertions]
    exact h.trans (List.prefix_append _ _)
  makeCanonical {t} target h := by
    rw [(makeCanonical_frame t target).2.2.2.1]
    exact h
  takes _ _ h := ⟨h, fun _ _ => trivial⟩

/-! ## The head while blocks are inserted -/

/-- the sync target has not been stored, has been stored and is about to be made canonical, or has been -/
inductive HeadStage (W : World) (sched : StateRoot.Schedule) (t₀ t : EngineTree E) : Bool → Prop
  | before (hhead : t.canonicalHead = t₀.canonicalHead)
      (hnone : ∀ h, t₀.isSyncTargetHead h = true → t.Stored h → t₀.Stored h) : HeadStage W sched t₀ t false
  | due {h : B256} (hhead : t.canonicalHead = t₀.canonicalHead) (htarget : t₀.isSyncTargetHead h = true)
      (hnew : ¬ t₀.Stored h) (hs : t.Stored h) : HeadStage W sched t₀ t true
  | after {h : B256} {s : EngineTree E} (htarget : t₀.isSyncTargetHead h = true) (hnew : ¬ t₀.Stored h)
      (hs : t.Stored h) (g : Grown W sched t₀ s) (hstored : s.Stored h) (hbefore : s.canonicalHead = t₀.canonicalHead)
      (hhead : t.canonicalHead = (s.makeCanonical h).canonicalHead) : HeadStage W sched t₀ t false

theorem isSyncTargetHead_unique {h k : B256} (hh : t.isSyncTargetHead h = true) (hk : t.isSyncTargetHead k = true) :
    h = k := by
  simp only [isSyncTargetHead] at hh hk
  cases ht : E.tracker.syncTargetState t.forkchoiceStateTracker with
  | none =>
    rw [ht] at hh
    cases hh
  | some target =>
    rw [ht] at hh hk
    exact (of_decide_eq_true hh).symm.trans (of_decide_eq_true hk)

theorem HeadStage.congr {due : Bool} (h : HeadStage W sched t₀ t due) (hhead : t'.canonicalHead = t.canonicalHead)
    (hstored : t'.storedHashes = t.storedHashes) : HeadStage W sched t₀ t' due := by
  cases h with
  | before hh hnone => exact .before (hhead.trans hh) fun k hk hs => hnone k hk (hstored.subset hs)
  | due hh htarget hnew hs => exact .due (hhead.trans hh) htarget hnew (hstored.symm.subset hs)
  | after htarget hnew hs g hmade hbefore hh =>
    exact .after htarget hnew (hstored.symm.subset hs) g hmade hbefore (hhead.trans hh)

/-- a block is stored -/
theorem HeadStage.stores {due : Bool} (h : HeadStage W sched t₀ t due) {b : B256} (hb : ¬ t.Stored b)
    (hhead : t'.canonicalHead = t.canonicalHead) (hstored : t'.storedHashes = insert b t.storedHashes)
    (hold : t₀.storedHashes ⊆ t.storedHashes) :
    HeadStage W sched t₀ t' (t₀.isSyncTargetHead b || due) := by
  have hmore : t.storedHashes ⊆ t'.storedHashes := hstored ▸ Set.subset_insert _ _
  cases htarget : t₀.isSyncTargetHead b with
  | true =>
    have hself : t'.Stored b := hstored.symm.subset (Set.mem_insert _ _)
    have hnew : ¬ t₀.Stored b := fun hs => hb (hold hs)
    rw [Bool.true_or]
    cases h with
    | before hh hnone => exact .due (hhead.trans hh) htarget hnew hself
    | due hh htarget' hnew' hs => exact absurd (isSyncTargetHead_unique htarget htarget' ▸ hs) hb
    | after htarget' hnew' hs => exact absurd (isSyncTargetHead_unique htarget htarget' ▸ hs) hb
  | false =>
    rw [Bool.false_or]
    cases h with
    | before hh hnone =>
      refine .before (hhead.trans hh) fun k hk hs => ?_
      rcases hstored.subset hs with rfl | hs
      · cases htarget.symm.trans hk
      · exact hnone k hk hs
    | due hh htarget' hnew' hs => exact .due (hhead.trans hh) htarget' hnew' (hmore hs)
    | after htarget' hnew' hs g hmade hbefore hh =>
      exact .after htarget' hnew' (hmore hs) g hmade hbefore (hhead.trans hh)

/-- the sync target that has been stored is made canonical -/
theorem HeadStage.makeCanonical (h : HeadStage W sched t₀ t true) (g : Grown W sched t₀ t) {k : B256}
    (hk : t₀.isSyncTargetHead k = true) : HeadStage W sched t₀ (t.makeCanonical k) false := by
  cases h with
  | due hhead htarget hnew hs =>
    cases isSyncTargetHead_unique hk htarget
    exact .after htarget hnew ((makeCanonical_storedHashes t k).symm.subset hs) g hs hhead rfl

/-- while a block that is the sync target is not stored, none is about to be made canonical -/
theorem HeadStage.not_due (h : HeadStage W sched t₀ t due) {k : B256} (hk : t₀.isSyncTargetHead k = true)
    (hnew : ¬ t.Stored k) : due = false := by
  cases h with
  | before => rfl
  | due _ htarget _ hs => exact absurd (isSyncTargetHead_unique htarget hk ▸ hs) hnew
  | after => rfl

/-! ## Back to the buffer -/

/-- a block that goes back to a buffer with room has its entries again, and no other hash is touched -/
theorem bufferWith_back {limit : ℕ} {history : List B256} (ha : Aged limit history Set.univ t.blockBuffer)
    (hroom : t.blockBuffer.lru.order.length < limit) (he : EmptyAt x.1.hash t.blockBuffer) :
    Aged limit (history ++ [x.1.hash]) Set.univ (t.bufferWith x.1 (some x.2)) ∧
      (t.bufferWith x.1 (some x.2)).Holds x ∧
      (∀ k, k ≠ x.1.hash → SameAt k t.blockBuffer (t.bufferWith x.1 (some x.2))) ∧
      (t.bufferWith x.1 (some x.2)).lru.order.length ≤ t.blockBuffer.lru.order.length + 1 := by
  have haged : Aged limit history Set.univ (t.blockBuffer.insertWitness x.1.hash x.2 ∅) :=
    ⟨ha.keyed, ha.numbers, ha.lru_nodup, ha.lru_keys, ha.lru_limit, ha.bounded, ha.recent⟩
  have hroom' : (t.blockBuffer.insertWitness x.1.hash x.2 ∅).lru.order.length <
      (t.blockBuffer.insertWitness x.1.hash x.2 ∅).lru.limit := by
    rw [haged.lru_limit]
    exact hroom
  have hnone : ∀ b, (t.blockBuffer.insertWitness x.1.hash x.2 ∅).blocks.get x.1.hash = some b →
      b.toSealedHeader = x.1.toSealedHeader := by
    intro b hb
    cases he.block.symm.trans hb
  obtain ⟨hblock, hwitness, hmissing⟩ := bufferWith_self t x.1 (some x.2)
  refine ⟨(haged.insertInRoom hnone (Or.inr hroom')).1, ⟨hblock, hwitness, hmissing.trans he.missing⟩, ?_,
    (bufferWith_room t x (ha.lru_limit ▸ hroom)).2.2.2⟩
  intro k hk
  simp only [bufferWith]
  rw [BlockBuffer.insertBlock_room x.1 (Or.inr hroom')]
  exact ⟨FMap.get_set_ne _ _ hk, FMap.get_set_ne _ _ hk, rfl⟩

theorem Inserts.canonicalHead {b : Block} {mw : Option ExecutionWitness} {r : Except InsertBlockErrorKind InsertPayloadOk}
    (hi : Inserts t b mw r t') : t'.canonicalHead = t.canonicalHead := by
  cases hi <;> rfl

/-! ## The loop on its way -/

/-- what holds of the tree on the way from `t₀`: the hashes of `rest` have not been tried, the blocks of `flight` are
out of the buffer and about to be inserted, and `due` says whether the sync target is about to be made canonical -/
structure Underway (W : World) (sched : StateRoot.Schedule) (t₀ : EngineTree E) (parked : Option B256)
    (rest : List B256) (flight : List (Block × ExecutionWitness)) (due : Bool) (t : EngineTree E) : Prop where
  grown : Grown W sched t₀ t
  wf : Wf W t
  head : HeadStage W sched t₀ t due
  calls : t₀.insertions <+: t.insertions
  frees : Frees t₀.blockBuffer t.blockBuffer
  room : ∃ limit history, Aged limit history Set.univ t.blockBuffer ∧
    t.blockBuffer.lru.order.length + flight.length ≤ limit
  out : Out flight t
  holds : ∀ x ∈ flight, t₀.blockBuffer.Holds x
  kept : ∀ x, t₀.blockBuffer.Holds x → Insertable sched t₀ x.1.hash →
    t.Stored x.1.hash ∨ SameAt x.1.hash t₀.blockBuffer t.blockBuffer ∨ x ∈ flight
  clear : ∀ h ∈ rest, Insertable sched t₀ h ∨ parked = some h → t.invalidHeader h = none
  waits : ∀ h ∈ rest, parked = some h →
    SameAt h t₀.blockBuffer t.blockBuffer ∧ (t.Stored h → t₀.Stored h) ∧ ∀ x ∈ flight, x.1.hash ≠ h

/-- the invalid header cache gets no entry for a hash that is to be tried -/
theorem Underway.withCache (u : Underway W sched t₀ parked rest flight due t) {cache : E.cache.Cache}
    (hcache : ∀ h ∈ rest, Insertable sched t₀ h ∨ parked = some h → t.invalidHeader h = none →
      (t.withCache cache).invalidHeader h = none) :
    Underway W sched t₀ parked rest flight due (t.withCache cache) where
  grown := u.grown.congr rfl rfl rfl
  wf := ⟨u.wf.chain, u.wf.buffer⟩
  head := u.head.congr rfl rfl
  calls := u.calls
  frees := u.frees
  room := u.room
  out := u.out.congr rfl
  holds := u.holds
  kept := u.kept
  clear h hh hc := hcache h hh hc (u.clear h hh hc)
  waits := u.waits

theorem Underway.forgets (u : Underway W sched t₀ parked rest flight due t) (hf : Forgets t t') :
    Underway W sched t₀ parked rest flight due t' := by
  rw [hf.withCache]
  refine u.withCache fun h _ _ hnone => ?_
  rw [← hf.withCache]
  exact hf.none hnone

/-- a failed insertion of a block that is not to be tried any more -/
theorem Underway.fails (u : Underway W sched t₀ parked rest flight due t) {b : Block} {kind : InsertBlockErrorKind}
    {r : Except InsertBlockFatalError PayloadStatus} (hf : Fails t b kind r t')
    (hb : b.hash ∈ rest → ¬ (Insertable sched t₀ b.hash ∨ parked = some b.hash)) :
    Underway W sched t₀ parked rest flight due t' := by
  have hother : ∀ h ∈ rest, Insertable sched t₀ h ∨ parked = some h → t.invalidHeader h = none →
      t'.invalidHeader h = none := by
    intro h hh hc hnone
    apply hf.other hnone
    rintro rfl
    exact hb hh hc
  cases hf with
  | fatal => exact u
  | invalid text _ latestValidHash t₁ hforget =>
    have hsame : ({ t₁ with invalidHeaders := E.cache.insert t₁.invalidHeaders b.blockWithParent } : EngineTree E) =
        t.withCache (E.cache.insert t₁.invalidHeaders b.blockWithParent) := by
      rw [hforget.withCache]
      rfl
    rw [hsame] at hother ⊢
    exact u.withCache hother

/-- the sync target is made canonical -/
theorem Underway.makeCanonical (u : Underway W sched t₀ parked rest flight true t) {k : B256}
    (hk : t₀.isSyncTargetHead k = true) : Underway W sched t₀ parked rest flight false (t.makeCanonical k) := by
  obtain ⟨hbuffer, -, -, hcalls, -⟩ := makeCanonical_frame t k
  have hstored := makeCanonical_storedHashes t k
  refine ⟨u.grown.makeCanonical k, u.wf.makeCanonical k, u.head.makeCanonical u.grown hk, hcalls ▸ u.calls,
    hbuffer ▸ u.frees, hbuffer ▸ u.room, u.out.congr hbuffer, u.holds, ?_, ?_, ?_⟩
  · intro x hx hins
    rw [hbuffer]
    exact (u.kept x hx hins).imp (fun hs => hstored.symm.subset hs) id
  · intro h hh hc
    rw [makeCanonical_invalidHeader]
    exact u.clear h hh hc
  · intro h hh hp
    rw [hbuffer]
    obtain ⟨hsame, hs, hne⟩ := u.waits h hh hp
    exact ⟨hsame, fun hk => hs (hstored.subset hk), hne⟩

/-- a block in flight is inserted -/
theorem Underway.inserts (u : Underway W sched t₀ parked rest (x :: flight) due t)
    (hbuffer : t₀.blockBuffer.Known W) {r : Except InsertBlockErrorKind InsertPayloadOk}
    (hi : Inserts t x.1 (some x.2) r t') (hr : Insertable sched t₀ x.1.hash → ∀ kind, r ≠ .error kind) {due' : Bool}
    (hgrown : Grown W sched t₀ t') (hhead : HeadStage W sched t₀ t' due') :
    Underway W sched t₀ parked rest flight due' t' := by
  have hx := u.holds x List.mem_cons_self
  have hempty := u.out.empty x List.mem_cons_self
  obtain ⟨limit, history, haged, hroom⟩ := u.room
  rw [List.length_cons] at hroom
  obtain ⟨haged', hback, hsame, hlength⟩ := bufferWith_back haged (by omega) hempty
  obtain ⟨hmono, hnew⟩ := hi.storedHashes_sub
  -- the buffer under other hashes
  have hother : ∀ k, k ≠ x.1.hash → SameAt k t.blockBuffer t'.blockBuffer := by
    intro k hk
    rcases hi.buffer with heq | heq
    · rw [heq]
      exact SameAt.rfl' k _
    · rw [heq]
      exact hsame k hk
  have hself : EmptyAt x.1.hash t'.blockBuffer ∨ SameAt x.1.hash t₀.blockBuffer t'.blockBuffer := by
    rcases hi.buffer with heq | heq
    · rw [heq]
      exact Or.inl hempty
    · rw [heq]
      exact Or.inr (hx.same hback)
  refine ⟨hgrown, hi.wf u.wf (hbuffer.blocks _ _ hx.block).2, hhead, ?_, ?_, ?_, u.out.inserts hi,
    fun y hy => u.holds y (List.mem_cons_of_mem _ hy), ?_, ?_, ?_⟩
  · rw [hi.insertions]
    exact u.calls.trans (List.prefix_append _ _)
  · intro k
    by_cases hk : k = x.1.hash
    · subst hk
      exact hself.symm
    · exact (u.frees k).imp (fun hs => hs.trans (hother k hk)) fun he => (hother k hk).empty he
  · rcases hi.buffer with heq | heq
    · rw [heq]
      exact ⟨limit, history, haged, by omega⟩
    · rw [heq]
      exact ⟨limit, _, haged', by omega⟩
  · intro y hy hins
    by_cases hyx : y.1.hash = x.1.hash
    · cases hy.unique hx hyx
      cases hi with
      | alreadySeen h => exact Or.inl h
      | refused kind => exact absurd rfl (hr hins kind)
      | disconnected => exact Or.inr (Or.inl (hx.same hback))
      | noWitness hmw => cases hmw
      | valid => exact Or.inl (ChainState.stored_insertBlock.2 (Or.inl rfl))
    · rcases u.kept y hy hins with hs | hs | hs
      · exact Or.inl (hmono hs)
      · exact Or.inr (Or.inl (hs.trans (hother _ hyx)))
      · rcases List.mem_cons.1 hs with rfl | hs
        · exact absurd rfl hyx
        · exact Or.inr (Or.inr hs)
  · intro h hh hc
    rw [hi.invalidHeader]
    exact u.clear h hh hc
  · intro h hh hp
    obtain ⟨hsame', hs, hne⟩ := u.waits h hh hp
    have hxh : h ≠ x.1.hash := fun heq => hne x List.mem_cons_self heq.symm
    refine ⟨hsame'.trans (hother h hxh), fun hk => hs ?_, fun y hy => hne y (List.mem_cons_of_mem _ hy)⟩
    exact (hnew hk).resolve_left hxh

theorem Underway.target (u : Underway W sched t₀ parked rest flight due t) (k : B256) :
    t.isSyncTargetHead k = t₀.isSyncTargetHead k := isSyncTargetHead_congr u.grown.tracker k

/-- the blocks to be tried that a parked payload waits for have their parent in the store -/
def Connected (t₀ : EngineTree E) (parked : Option B256) (rest : List B256) : Prop :=
  ∀ h ∈ rest, parked = some h → ∀ b, t₀.blockBuffer.blocks.get h = some b → t₀.Stored b.parentHash

/-- ready blocks are taken out of the buffer -/
theorem Underway.takesOut (u : Underway W sched t₀ parked rest [] due t) {buffer : BlockBuffer}
    (htaken : BlockBuffer.Taken t.blockBuffer buffer flight) (hfrees : Frees t.blockBuffer buffer)
    (hsame : ∀ k, SameAt k t.blockBuffer buffer ∨ ∃ x ∈ flight, x.1.hash = k)
    (haged : ∀ {limit history}, Aged limit history Set.univ t.blockBuffer → Aged limit history Set.univ buffer)
    (hparked : ∀ h ∈ rest, parked = some h → ∀ x ∈ flight, x.1.hash ≠ h) :
    Underway W sched t₀ parked rest flight due { t with blockBuffer := buffer } := by
  obtain ⟨limit, history, hlimit, -⟩ := u.room
  have hholds : ∀ x ∈ flight, t₀.blockBuffer.Holds x := by
    intro x hx
    obtain ⟨hb, hw, hm⟩ := htaken.taken x hx
    have hold := u.frees.same_of_block hb
    exact ⟨hold.block.symm.trans hb, hold.witness.symm.trans hw, hold.missing.symm.trans hm⟩
  refine ⟨u.grown.congr rfl rfl rfl,
    ⟨u.wf.chain, u.wf.buffer.shrinks htaken.toShrinks⟩, u.head.congr rfl rfl, u.calls, u.frees.trans hfrees,
    ⟨limit, history, haged hlimit, htaken.fits hlimit (haged hlimit)⟩, ⟨fun x hx => ?_, htaken.nodup⟩, hholds, ?_,
    u.clear, ?_⟩
  · rcases hfrees x.1.hash with hs | hempty
    · have hgone := htaken.gone x hx
      rw [hs.block, (htaken.taken x hx).1] at hgone
      cases hgone
    · exact hempty
  · intro y hy hins
    rcases u.kept y hy hins with hs | hs | hs
    · exact Or.inl hs
    · rcases hsame y.1.hash with hs' | ⟨x, hx, hxy⟩
      · exact Or.inr (Or.inl (hs.trans hs'))
      · cases (hholds x hx).unique hy hxy
        exact Or.inr (Or.inr hx)
    · cases hs
  · intro h hh hpark
    obtain ⟨hs, hstored, -⟩ := u.waits h hh hpark
    refine ⟨?_, hstored, hparked h hh hpark⟩
    rcases hsame h with hs' | ⟨x, hx, hxh⟩
    · exact hs.trans hs'
    · exact absurd hxh (hparked h hh hpark x hx)

/-- **The descendants of a block that can be inserted** are taken out of the buffer. The parked block is none of them:
its parent was stored before. -/
theorem Underway.takes (u : Underway W sched t₀ parked rest [] due t) (hbuffer : t₀.blockBuffer.Known W)
    (habove : NoneAbove W sched t₀) (hconnected : Connected t₀ parked rest) (ord : Enumeration B256) {p : B256}
    (hp : Insertable sched t₀ p) (hempty : EmptyAt p t.blockBuffer) :
    Underway W sched t₀ parked rest (t.takenFor ord p) due (t.takeFor ord p) := by
  have hkeyed := u.wf.buffer.keyed
  have htaken := BlockBuffer.removeBlockWithChildren_taken ord t.blockBuffer p hkeyed
  refine u.takesOut htaken (BlockBuffer.removeBlockWithChildren_frees ord t.blockBuffer p)
    (BlockBuffer.removeBlockWithChildren_same_or ord p hkeyed) (BlockBuffer.removeBlockWithChildren_aged ord p) ?_
  rintro h hh hpark x hx rfl
  have hb := (htaken.taken x hx).1
  rcases Relation.ReflTransGen.cases_head (BlockBuffer.removeBlockWithChildren_descends ord p u.wf.buffer x hx) with
    heq | ⟨q, ⟨y, hy, rfl⟩, hq⟩
  · rw [heq, hempty.block] at hb
    cases hb
  · have hblock := (u.frees.same_of_block hb).block.symm.trans hb
    have hknown := (hbuffer.blocks _ _ hblock).2
    cases (show W.header x.1.hash = some x.1.toSealedHeader from hknown).symm.trans hy
    exact habove _ _ (hconnected _ hh hpark x.1 hblock) hp hq

/-- **A hash is tried**: its block is taken out of the buffer, if it is ready. -/
theorem Underway.removes {h : B256} (u : Underway W sched t₀ parked (h :: rest) [] due t) (hh : h ∉ rest) :
    Underway W sched t₀ parked rest (t.blockBuffer.removeBlock h).1.toList due
      { t with blockBuffer := (t.blockBuffer.removeBlock h).2 } := by
  have hkeyed := u.wf.buffer.keyed
  obtain ⟨htaken, -, hself⟩ := BlockBuffer.removeBlock_taken hkeyed h
  have hmore : Underway W sched t₀ parked rest [] due t :=
    ⟨u.grown, u.wf, u.head, u.calls, u.frees, u.room, u.out, u.holds, u.kept,
      fun k hk => u.clear k (List.mem_cons_of_mem _ hk), fun k hk => u.waits k (List.mem_cons_of_mem _ hk)⟩
  refine hmore.takesOut htaken (BlockBuffer.removeBlock_frees t.blockBuffer h)
    (BlockBuffer.removeBlock_same_or hkeyed h) (fun ha => ha.drops (BlockBuffer.removeBlock_drops t.blockBuffer h)) ?_
  rintro k hk - x hx rfl
  exact hh (hself x hx ▸ hk)

section Tried

variable (sched') (hsound : Chain.Sound W t₀.chain) (hbuffer : t₀.blockBuffer.Known W) (habove : NoneAbove W sched t₀)
  (hmap : StorageTrieMap E)

include hsound hbuffer habove hmap

/-- **Inserting a block in flight.** If it is found valid the sync target may be due. -/
theorem Underway.insertBlock (u : Underway W sched t₀ parked rest (x :: flight) due t) :
    ((t.insertBlock sched' x.1 (some x.2)).1 ≠ .ok (.inserted .valid) ∧
        Underway W sched t₀ parked rest flight due (t.insertBlock sched' x.1 (some x.2)).2) ∨
      ((t.insertBlock sched' x.1 (some x.2)).1 = .ok (.inserted .valid) ∧ Insertable sched t₀ x.1.hash ∧
        ¬ t.Stored x.1.hash ∧
        Underway W sched t₀ parked rest flight (t₀.isSyncTargetHead x.1.hash || due)
          (t.insertBlock sched' x.1 (some x.2)).2) := by
  have hx := u.holds x List.mem_cons_self
  have hi := insertBlock_inserts t sched' x.1 (some x.2)
  have hrefused : Insertable sched t₀ x.1.hash → ∀ kind, (t.insertBlock sched' x.1 (some x.2)).1 ≠ .error kind :=
    fun hins => hins.not_refused hsound hbuffer habove hmap u.grown hx
  by_cases hv : (t.insertBlock sched' x.1 (some x.2)).1 = .ok (.inserted .valid)
  · have hins := u.grown.insertable hsound hbuffer habove hmap hx hv
    obtain ⟨w, -, hnew, -⟩ := insertBlock_valid hv
    have hi' := hi
    rw [hv] at hi'
    have hgrown := u.grown.valid hbuffer hx hins hi'
    refine Or.inr ⟨hv, hins, hnew, u.inserts hbuffer hi hrefused hgrown ?_⟩
    refine u.head.stores hnew hi.canonicalHead ?_ fun k hk => u.grown.stored hk
    rcases hi'.effects with ⟨-, hstored⟩ | ⟨-, -, hstored⟩ | ⟨-, -, hstored⟩
    · exact absurd (hstored.subset (hi'.stored (Or.inl rfl))) hnew
    · exact hstored
    · exact absurd (hstored.subset (hi'.stored (Or.inl rfl))) hnew
  · exact Or.inl ⟨hv, u.inserts hbuffer hi hrefused (u.grown.notValid hi hv)
      (u.head.congr hi.canonicalHead (hi.storedHashes_eq hv))⟩

/-- **One round** of the loop over the blocks in flight. -/
theorem Underway.connectOne (u : Underway W sched t₀ parked rest (x :: flight) due t) :
    Underway W sched t₀ parked rest flight due (t.connectOne sched' x) := by
  have hcases := u.insertBlock sched' hsound hbuffer habove hmap
  have hwaits : ∀ h ∈ rest, parked = some h → x.1.hash ≠ h := fun h hh hp =>
    (u.waits h hh hp).2.2 x List.mem_cons_self
  have hrefused : Insertable sched t₀ x.1.hash → ∀ kind, (t.insertBlock sched' x.1 (some x.2)).1 ≠ .error kind :=
    fun hins => hins.not_refused hsound hbuffer habove hmap u.grown (u.holds x List.mem_cons_self)
  simp only [EngineTree.connectOne, connectBlocks]
  cases hr : t.insertBlock sched' x.1 (some x.2) with
  | mk result t₁ =>
    rw [hr] at hcases hrefused
    cases result with
    | ok result =>
      rcases hcases with ⟨hv, u₁⟩ | ⟨hv, -, hnew, u₁⟩
      · have hcond : ¬ (t₁.isSyncTargetHead x.1.hash = true ∧ result = .inserted .valid) := by
          rintro ⟨-, rfl⟩
          exact hv rfl
        simp only [if_neg hcond]
        exact u₁
      · cases hv
        have htarget := u₁.target x.1.hash
        simp only [htarget, and_true]
        cases ht : t₀.isSyncTargetHead x.1.hash with
        | true =>
          rw [ht, Bool.true_or] at u₁
          rw [u.head.not_due ht hnew]
          exact u₁.makeCanonical ht
        | false =>
          rw [ht, Bool.false_or] at u₁
          exact u₁
    | error kind =>
      have hfails := onInsertBlockError_fails t₁ x.1 kind
      rcases hcases with ⟨-, u₁⟩ | ⟨hv, -⟩
      · simp only
        have hnot : x.1.hash ∈ rest → ¬ (Insertable sched t₀ x.1.hash ∨ parked = some x.1.hash) := by
          rintro hmem (hins | hp)
          · exact hrefused hins kind rfl
          · exact hwaits _ hmem hp rfl
        have hafter := u₁.fails hfails hnot
        cases hk : t₁.onInsertBlockError x.1 kind with
        | mk answer t₂ =>
          rw [hk] at hafter
          cases answer <;> exact hafter
      · cases hv

/-- **The loop** over the blocks in flight runs to its end. -/
theorem Underway.connectBlocks (u : Underway W sched t₀ parked rest flight due t)
    (hfatal : NoFatalSince t₀ (connectBlocks sched' flight t).2) :
    (connectBlocks sched' flight t).1 = .ok () ∧
      Underway W sched t₀ parked rest [] due (EngineTree.connectBlocks sched' flight t).2 := by
  induction flight generalizing t with
  | nil => exact ⟨rfl, u⟩
  | cons x flight ih =>
    cases hx : t.fatalError sched' x with
    | some fatal =>
      rw [connectBlocks_fatal hx] at hfatal
      have hnone := hfatal.continues u.calls List.prefix_rfl
      cases hx.symm.trans hnone
    | none =>
      rw [connectBlocks_next hx] at hfatal ⊢
      exact ih (u.connectOne sched' hsound hbuffer habove hmap) hfatal

end Tried

/-! ## A block on its own turn -/

/-- a block that cannot be inserted may be dropped -/
theorem Underway.drops (u : Underway W sched t₀ parked rest (x :: flight) due t)
    (hx : ¬ Insertable sched t₀ x.1.hash) : Underway W sched t₀ parked rest flight due t := by
  obtain ⟨limit, history, haged, hroom⟩ := u.room
  rw [List.length_cons] at hroom
  refine ⟨u.grown, u.wf, u.head, u.calls, u.frees, ⟨limit, history, haged, by omega⟩,
    ⟨fun y hy => u.out.empty y (List.mem_cons_of_mem _ hy), (List.nodup_cons.1 u.out.nodup).2⟩,
    fun y hy => u.holds y (List.mem_cons_of_mem _ hy), ?_, u.clear, ?_⟩
  · intro y hy hins
    rcases u.kept y hy hins with hs | hs | hs
    · exact Or.inl hs
    · exact Or.inr (Or.inl hs)
    · rcases List.mem_cons.1 hs with rfl | hs
      · exact absurd hins hx
      · exact Or.inr (Or.inr hs)
  · intro h hh hp
    obtain ⟨hsame, hs, hne⟩ := u.waits h hh hp
    exact ⟨hsame, hs, fun y hy => hne y (List.mem_cons_of_mem _ hy)⟩

/-- nothing is looked up for a block in flight but its own hash -/
theorem Underway.lowest (u : Underway W sched t₀ parked rest (x :: flight) due t) :
    t.lowestBufferedAncestorOr x.1.hash = x.1.hash := by
  have hempty := u.out.empty x List.mem_cons_self
  simp only [lowestBufferedAncestorOr, BlockBuffer.lowestAncestor, hempty.block, Option.map_none, Option.getD_none]

/-- a block that the invalid header cache rejects -/
theorem Underway.rejected (u : Underway W sched t₀ parked rest (x :: flight) due t) (hx : x.1.hash ∉ rest)
    (hins : ¬ Insertable sched t₀ x.1.hash) (hf : Forgets t t') (header : BlockWithParent) :
    Underway W sched t₀ parked rest flight due
      (t'.withCache (E.cache.insertWithInvalidAncestor t'.invalidHeaders x.1.hash header)) := by
  refine ((u.drops hins).forgets hf).withCache ?_
  intro h hh _ hnone
  cases hg : (t'.withCache (E.cache.insertWithInvalidAncestor t'.invalidHeaders x.1.hash header)).invalidHeader h with
  | none => rfl
  | some y =>
    rcases E.cache.insertWith_entry _ _ _ _ _ hg with hold | ⟨rfl, -⟩
    · exact absurd (hnone.symm.trans hold) (by simp)
    · exact absurd hh hx

/-- an event makes this block canonical if the sync target is due, and none otherwise -/
structure Announced (t₀ : EngineTree E) (due : Bool) (event : Option TreeEvent) : Prop where
  makes : due = true → ∃ k, event = some (TreeEvent.makeCanonical k) ∧ t₀.isSyncTargetHead k = true
  quiet : due = false → ∀ k, event ≠ some (TreeEvent.makeCanonical k)

/-- the status of a block whose parent is stored, by the result of its insertion -/
def statusOf (E : Env) (b : Block) :
    Except InsertBlockErrorKind InsertPayloadOk → Except InsertBlockFatalError PayloadStatus
  | .ok _ => .ok ⟨.valid, some b.hash⟩
  | .error kind => (E.ensureValidationError kind).map fun text => ⟨.invalid (.insertBlock text), some b.parentHash⟩

theorem onInsertBlockError_status {b : Block} (hp : t.Stored b.parentHash) (kind : InsertBlockErrorKind) :
    (t.onInsertBlockError b kind).1 = statusOf E b (.error kind) := by
  have hstored : (t.provider.sealedHeader b.parentHash).isSome = true := ChainState.sealedHeader_isSome.2 hp
  simp only [onInsertBlockError, latestValidHashForInvalidPayload, if_pos hstored, statusOf]
  cases E.ensureValidationError kind <;> rfl

section Tried

variable (sched') (hsound : Chain.Sound W t₀.chain) (hbuffer : t₀.blockBuffer.Known W) (habove : NoneAbove W sched t₀)
  (hmap : StorageTrieMap E)

include hsound hbuffer habove hmap

/-- **A block on its own turn** is inserted, and if it is valid so are its descendants. -/
theorem Underway.onDownloadedBlock (u : Underway W sched t₀ parked rest [x] false t)
    (hconnected : Connected t₀ parked rest) (hx : x.1.hash ∉ rest)
    (hclear : Insertable sched t₀ x.1.hash → t.invalidHeader x.1.hash = none)
    (hfatal : NoFatalSince t₀ (t.onDownloadedBlock sched' x.1 x.2).2) :
    ∃ due, Underway W sched t₀ parked rest [] due (t.onDownloadedBlock sched' x.1 x.2).2 ∧
      Announced t₀ due (announced (t.onDownloadedBlock sched' x.1 x.2).1) ∧
      (t.invalidHeader x.1.hash = none → t.Stored x.1.parentHash →
        (t.onDownloadedBlock sched' x.1 x.2).1.map (fun outcome => outcome.outcome) =
          statusOf E x.1 (t.insertBlock sched' x.1 (some x.2)).1) := by
  have hquiet : ∀ {event : Option TreeEvent}, (∀ k, event ≠ some (TreeEvent.makeCanonical k)) →
      Announced t₀ false event := fun hevent => ⟨fun h => (by cases h), fun _ => hevent⟩
  simp only [EngineTree.onDownloadedBlock, u.lowest] at hfatal ⊢
  cases hn : t.lookupInvalid x.1.hash with
  | some header =>
    rw [checkInvalid_found x.1.hash hn]
    have hins : ¬ Insertable sched t₀ x.1.hash := by
      intro hins
      cases (hclear hins).symm.trans (lookupInvalid_some hn)
    have hforgets : Forgets t ((t.afterLookup x.1.hash).prepareInvalidResponse header.parent).2 :=
      (get_forgets t x.1.hash).trans (prepareInvalidResponse_forgets _ header.parent)
    refine ⟨false, u.rejected hx hins hforgets header, hquiet (by rintro k ⟨⟩), fun hnone => ?_⟩
    cases hnone.symm.trans (lookupInvalid_some hn)
  | none =>
    rw [checkInvalid_notFound x.1.hash hn] at hfatal ⊢
    have u₁ : Underway W sched t₀ parked rest [x] false (t.afterLookup x.1.hash) := u.forgets (get_forgets t x.1.hash)
    have hcases := u₁.insertBlock sched' hsound hbuffer habove hmap
    have hi := insertBlock_inserts (t.afterLookup x.1.hash) sched' x.1 (some x.2)
    have hresult : ((t.afterLookup x.1.hash).insertBlock sched' x.1 (some x.2)).1 =
        (t.insertBlock sched' x.1 (some x.2)).1 := by
      rw [insertBlock_afterLookup]
    rw [← hresult]
    simp only at hfatal ⊢
    cases hr : (t.afterLookup x.1.hash).insertBlock sched' x.1 (some x.2) with
    | mk result t₂ =>
      rw [hr] at hcases hi hfatal
      cases result with
      | error kind =>
        have hfails := onInsertBlockError_fails t₂ x.1 kind
        rcases hcases with ⟨-, u₂⟩ | ⟨hv, -⟩
        · have hafter := u₂.fails hfails fun hmem => absurd hmem hx
          have hstatus := fun hp => onInsertBlockError_status (b := x.1) (hi.storedHashes_sub.1 hp) kind
          simp only
          cases hk : t₂.onInsertBlockError x.1 kind with
          | mk answer t₃ =>
            rw [hk] at hafter hstatus
            cases answer with
            | error fatal => exact ⟨false, hafter, hquiet (by rintro k ⟨⟩), fun _ hp => hstatus hp⟩
            | ok status => exact ⟨false, hafter, hquiet (by rintro k ⟨⟩), fun _ hp => hstatus hp⟩
        · cases hv
      | ok result =>
        rcases hcases with ⟨hv, u₂⟩ | ⟨hv, hins, -, u₂⟩
        · cases result with
          | alreadySeen => exact ⟨false, u₂, hquiet (by rintro k ⟨⟩), fun _ _ => rfl⟩
          | inserted status =>
            cases status with
            | valid => exact absurd rfl hv
            | disconnected head missing =>
              refine ⟨false, u₂, hquiet (by rintro k ⟨⟩), fun _ hp => ?_⟩
              cases hi with
              | disconnected _ _ _ hnot => exact absurd hp hnot
            | noWitness =>
              cases hi with
              | noWitness hmw => cases hmw
        · cases hv
          have hempty : EmptyAt x.1.hash t₂.blockBuffer := by
            cases hi with
            | valid => exact u₁.out.empty x List.mem_cons_self
          have u₃ := u₂.takes hbuffer habove hconnected sched'.order hins hempty
          have hloop := u₃.connectBlocks sched' hsound hbuffer habove hmap
          have htarget := u₂.target x.1.hash
          simp only at hfatal ⊢
          cases hk : t₂.tryConnectBufferedBlocks sched' x.1.hash with
          | mk answer t₃ =>
            rw [hk] at hfatal
            have heq : EngineTree.connectBlocks sched' (t₂.takenFor sched'.order x.1.hash)
                (t₂.takeFor sched'.order x.1.hash) = (answer, t₃) := hk
            rw [heq] at hloop
            have hend : NoFatalSince t₀ t₃ := by
              cases answer <;> exact hfatal
            obtain ⟨hok, u₄⟩ := hloop hend
            cases hok
            refine ⟨_, u₄, ?_, fun _ _ => rfl⟩
            simp only [announced, Except.toOption, Option.bind, htarget, Bool.or_false]
            cases ht : t₀.isSyncTargetHead x.1.hash with
            | true => exact ⟨fun _ => ⟨_, rfl, ht⟩, fun h => by cases h⟩
            | false => exact hquiet (by rintro k ⟨⟩)

end Tried

end EngineTree

end Ress
