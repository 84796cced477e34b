/-
What `try_connect_buffered_blocks` does with the blocks it takes.

All connectable descendants leave the buffer up front and are inserted one by one; a fatal error ends the loop, and the
blocks behind the one that failed are dropped with their witnesses.

- `connectOne`, `fatalSplit`: one round of the loop, and where the loop stops.
- `Settles`: what the rounds do to the blocks they handle and to all others.
- `tryConnect_conserves_iff`: exactly when no buffered block is lost.
-/
import Ress.Tree.BufferLinks
import Ress.Tree.TreeRun

namespace Ress

namespace EngineTree

variable {E : Env}

/-! ## Rounds -/

/-- the fatal error in which the insertion of a buffered block ends -/
def fatalError (t : EngineTree E) (sched : StateRoot.Schedule) (x : Block × ExecutionWitness) :
    Option InsertBlockFatalError :=
  match (t.insertBlock sched x.1 (some x.2)).1 with
  | .ok _ => none
  | .error kind =>
    match E.ensureValidationError kind with
    | .ok _ => none
    | .error fatal => some fatal

/-- one round of the loop over the descendants -/
def connectOne (t : EngineTree E) (sched : StateRoot.Schedule) (x : Block × ExecutionWitness) : EngineTree E :=
  (connectBlocks sched [x] t).2

/-- the first block whose own insertion is fatal, and the blocks behind it -/
def fatalSplit (sched : StateRoot.Schedule) :
    List (Block × ExecutionWitness) → EngineTree E →
      Option ((Block × ExecutionWitness) × List (Block × ExecutionWitness))
  | [], _ => none
  | x :: blocks, t =>
    match t.fatalError sched x with
    | some _ => some (x, blocks)
    | none => fatalSplit sched blocks (t.connectOne sched x)

/-- inserting the block fails with a validation error, so that its header is put into the invalid header cache -/
def InsertsInvalid (t : EngineTree E) (sched : StateRoot.Schedule) (x : Block × ExecutionWitness) : Prop :=
  ∃ kind text, (t.insertBlock sched x.1 (some x.2)).1 = .error kind ∧ E.ensureValidationError kind = .ok text

/-- a round of the loop puts the hash into the invalid header cache -/
def Records (sched : StateRoot.Schedule) (hash : B256) : List (Block × ExecutionWitness) → EngineTree E → Prop
  | [], _ => False
  | x :: blocks, t =>
    x.1.hash = hash ∧ t.InsertsInvalid sched x ∨
      t.fatalError sched x = none ∧ Records sched hash blocks (t.connectOne sched x)

variable {t t' t₁ : EngineTree E} {sched : StateRoot.Schedule} {x : Block × ExecutionWitness}
  {blocks : List (Block × ExecutionWitness)}

theorem connectBlocks_fatal {fatal : InsertBlockFatalError} (h : t.fatalError sched x = some fatal) :
    connectBlocks sched (x :: blocks) t = (.error fatal, t.connectOne sched x) := by
  simp only [fatalError] at h
  simp only [connectOne, connectBlocks]
  cases hr : t.insertBlock sched x.1 (some x.2) with
  | mk result t₁ =>
    rw [hr] at h
    cases result with
    | ok result => cases h
    | error kind =>
      simp only at h ⊢
      simp only [onInsertBlockError]
      cases he : E.ensureValidationError kind with
      | ok text => simp [he] at h
      | error fatal' =>
        rw [he] at h
        cases h
        rfl

theorem connectBlocks_next (h : t.fatalError sched x = none) :
    connectBlocks sched (x :: blocks) t = connectBlocks sched blocks (t.connectOne sched x) := by
  simp only [fatalError] at h
  simp only [connectOne, connectBlocks]
  cases hr : t.insertBlock sched x.1 (some x.2) with
  | mk result t₁ =>
    rw [hr] at h
    cases result with
    | ok result =>
      simp only
      split_ifs
      · rfl
      · rfl
    | error kind =>
      simp only at h ⊢
      simp only [onInsertBlockError]
      cases he : E.ensureValidationError kind with
      | ok text => rfl
      | error fatal => simp [he] at h

theorem fatalSplit_append {y : Block × ExecutionWitness} {post : List (Block × ExecutionWitness)}
    (h : fatalSplit sched blocks t = some (y, post)) : ∃ pre, blocks = pre ++ y :: post := by
  induction blocks generalizing t with
  | nil => cases h
  | cons x blocks ih =>
    simp only [fatalSplit] at h
    cases hx : t.fatalError sched x with
    | some fatal =>
      rw [hx] at h
      cases h
      exact ⟨[], rfl⟩
    | none =>
      rw [hx] at h
      obtain ⟨pre, rfl⟩ := ih h
      exact ⟨x :: pre, rfl⟩

/-! ## What a round does -/

/-- inserting a block changes the buffer only by adding the block with its witness -/
theorem Inserts.buffer {b : Block} {mw : Option ExecutionWitness} {r : Except InsertBlockErrorKind InsertPayloadOk}
    (hi : Inserts t b mw r t') :
    t'.blockBuffer = t.blockBuffer ∨ t'.blockBuffer = t.bufferWith b mw := by
  cases hi with
  | alreadySeen => exact Or.inl rfl
  | refused => exact Or.inl rfl
  | disconnected => exact Or.inr rfl
  | noWitness hmw =>
    subst hmw
    exact Or.inr rfl
  | valid => exact Or.inl rfl

/-- one round: the store grows by at most the block, and the buffer changes only by getting it back -/
structure RoundOf (t : EngineTree E) (x : Block × ExecutionWitness) (t' : EngineTree E) : Prop where
  mono : t.storedHashes ⊆ t'.storedHashes
  new : t'.storedHashes ⊆ insert x.1.hash t.storedHashes
  buffer : t'.blockBuffer = t.blockBuffer ∨ t'.blockBuffer = t.bufferWith x.1 (some x.2)

theorem Inserts.roundOf {r : Except InsertBlockErrorKind InsertPayloadOk} (hi : Inserts t x.1 (some x.2) r t₁)
    (hbuffer : t'.blockBuffer = t₁.blockBuffer) (hstored : t'.storedHashes = t₁.storedHashes) : RoundOf t x t' := by
  obtain ⟨hmono, hnew⟩ := hi.storedHashes_sub
  exact ⟨by rw [hstored]; exact hmono, by rw [hstored]; exact hnew, by rw [hbuffer]; exact hi.buffer⟩

/-- where the block is after a round that was not fatal -/
theorem Inserts.lands {result : InsertPayloadOk} (hi : Inserts t x.1 (some x.2) (.ok result) t₁) :
    t₁.Stored x.1.hash ∨ t₁.blockBuffer = t.bufferWith x.1 (some x.2) := by
  cases hi with
  | alreadySeen h => exact Or.inl h
  | disconnected => exact Or.inr rfl
  | noWitness hmw => cases hmw
  | valid => exact Or.inl (ChainState.stored_insertBlock.2 (Or.inl rfl))

/-- **One round.** Unless the block's own insertion is fatal, it is stored, back in the buffer, or recorded. -/
theorem connectOne_round (t : EngineTree E) (sched : StateRoot.Schedule) (x : Block × ExecutionWitness) :
    RoundOf t x (t.connectOne sched x) ∧
      (t.fatalError sched x = none → (t.connectOne sched x).Stored x.1.hash ∨
        (t.connectOne sched x).blockBuffer = t.bufferWith x.1 (some x.2) ∨ t.InsertsInvalid sched x) := by
  have hi := insertBlock_inserts t sched x.1 (some x.2)
  simp only [connectOne, connectBlocks, fatalError, InsertsInvalid]
  cases hr : t.insertBlock sched x.1 (some x.2) with
  | mk result t₁ =>
    rw [hr] at hi
    cases result with
    | ok result =>
      simp only
      split_ifs
      · have hbuffer := (makeCanonical_frame t₁ x.1.hash).1
        have hstored := makeCanonical_storedHashes t₁ x.1.hash
        refine ⟨hi.roundOf hbuffer hstored, fun _ => ?_⟩
        rcases hi.lands with h | h
        · exact Or.inl (hstored.symm.subset h)
        · exact Or.inr (Or.inl (hbuffer.trans h))
      · refine ⟨hi.roundOf rfl rfl, fun _ => ?_⟩
        rcases hi.lands with h | h
        · exact Or.inl h
        · exact Or.inr (Or.inl h)
    | error kind =>
      have hfails := onInsertBlockError_fails t₁ x.1 kind
      simp only
      cases hk : t₁.onInsertBlockError x.1 kind with
      | mk answer t₂ =>
        rw [hk] at hfails
        obtain ⟨hbuffer, hstored⟩ := hfails.frame
        cases answer with
        | error fatal =>
          refine ⟨hi.roundOf hbuffer hstored, fun hfatal => ?_⟩
          cases hfails with
          | fatal _ he => simp [he] at hfatal
        | ok status =>
          refine ⟨hi.roundOf hbuffer hstored, fun _ => ?_⟩
          cases hfails with
          | invalid text he => exact Or.inr (Or.inr ⟨kind, text, rfl, he⟩)

/-! ## The loop -/

/-- the buffer has room for the blocks of a list, and holds none of them -/
structure Room (blocks : List (Block × ExecutionWitness)) (β : BlockBuffer) : Prop where
  length : β.lru.order.length + blocks.length ≤ β.lru.limit
  nodup : (blocks.map fun x => x.1.hash).Nodup
  absent : ∀ y ∈ blocks, β.blocks.get y.1.hash = none

/-- the blocks and witnesses under other hashes are the same -/
def SameElsewhere (blocks : List (Block × ExecutionWitness)) (β β' : BlockBuffer) : Prop :=
  ∀ h, (∀ y ∈ blocks, y.1.hash ≠ h) → β'.blocks.get h = β.blocks.get h ∧ β'.witnesses.get h = β.witnesses.get h

theorem Room.fits {β : BlockBuffer} (h : Room (x :: blocks) β) : β.lru.order.length < β.lru.limit := by
  have hlength := h.length
  rw [List.length_cons] at hlength
  omega

/-- a block that goes back while there is room evicts nothing -/
theorem bufferWith_room (t : EngineTree E) (x : Block × ExecutionWitness)
    (hroom : t.blockBuffer.lru.order.length < t.blockBuffer.lru.limit) :
    (t.bufferWith x.1 (some x.2)).blocks = t.blockBuffer.blocks.set x.1.hash x.1 ∧
      (t.bufferWith x.1 (some x.2)).witnesses = t.blockBuffer.witnesses.set x.1.hash x.2 ∧
      (t.bufferWith x.1 (some x.2)).lru.limit = t.blockBuffer.lru.limit ∧
      (t.bufferWith x.1 (some x.2)).lru.order.length ≤ t.blockBuffer.lru.order.length + 1 := by
  have hroom' : (t.blockBuffer.insertWitness x.1.hash x.2 ∅).lru.order.length <
      (t.blockBuffer.insertWitness x.1.hash x.2 ∅).lru.limit := hroom
  simp only [bufferWith]
  rw [BlockBuffer.insertBlock_room x.1 (Or.inr hroom')]
  refine ⟨rfl, rfl, rfl, ?_⟩
  have hle := (List.erase_sublist (a := x.1.hash) (l := t.blockBuffer.lru.order)).length_le
  simp only [BlockBuffer.addInFront, BlockBuffer.insertWitness, List.length_cons]
  omega

/-- a round leaves room for the blocks that follow, and does not touch other hashes -/
theorem RoundOf.room (hr : RoundOf t x t') (h : Room (x :: blocks) t.blockBuffer) :
    Room blocks t'.blockBuffer ∧ SameElsewhere [x] t.blockBuffer t'.blockBuffer := by
  obtain ⟨hnew, hnodup⟩ := List.nodup_cons.1 h.nodup
  have hlength := h.length
  rw [List.length_cons] at hlength
  rcases hr.buffer with heq | heq
  · rw [heq]
    refine ⟨⟨?_, hnodup, fun y hy => h.absent y (List.mem_cons_of_mem _ hy)⟩, fun _ _ => ⟨rfl, rfl⟩⟩
    omega
  · obtain ⟨hblocks, hwitnesses, hlimit, horder⟩ := bufferWith_room t x h.fits
    rw [heq]
    refine ⟨⟨?_, hnodup, ?_⟩, ?_⟩
    · rw [hlimit]
      omega
    · intro y hy
      have hne : y.1.hash ≠ x.1.hash := fun he => hnew (List.mem_map.2 ⟨y, hy, he⟩)
      rw [hblocks, FMap.get_set_ne _ _ hne]
      exact h.absent y (List.mem_cons_of_mem _ hy)
    · intro k hk
      have hne : k ≠ x.1.hash := fun he => hk x (List.mem_singleton_self x) he.symm
      rw [hblocks, hwitnesses, FMap.get_set_ne _ _ hne, FMap.get_set_ne _ _ hne]
      exact ⟨rfl, rfl⟩

/-- what the loop keeps: stored blocks stay stored, and blocks that are not in the list are not touched -/
theorem connectBlocks_others (sched : StateRoot.Schedule) (blocks : List (Block × ExecutionWitness)) (t : EngineTree E)
    (h : Room blocks t.blockBuffer) :
    t.storedHashes ⊆ (connectBlocks sched blocks t).2.storedHashes ∧
      SameElsewhere blocks t.blockBuffer (connectBlocks sched blocks t).2.blockBuffer := by
  induction blocks generalizing t with
  | nil => exact ⟨subset_rfl, fun _ _ => ⟨rfl, rfl⟩⟩
  | cons x blocks ih =>
    have hround := (connectOne_round t sched x).1
    obtain ⟨hroom, hsame⟩ := hround.room h
    cases hx : t.fatalError sched x with
    | some fatal =>
      rw [connectBlocks_fatal hx]
      exact ⟨hround.mono, fun k hk => hsame k fun y hy => hk y (by simp [List.mem_singleton.1 hy])⟩
    | none =>
      rw [connectBlocks_next hx]
      obtain ⟨hmono, hrest⟩ := ih _ hroom
      refine ⟨hround.mono.trans hmono, fun k hk => ?_⟩
      obtain ⟨hb, hw⟩ := hrest k fun y hy => hk y (List.mem_cons_of_mem _ hy)
      obtain ⟨hb', hw'⟩ := hsame k fun y hy => hk y (by simp [List.mem_singleton.1 hy])
      exact ⟨hb.trans hb', hw.trans hw'⟩

/-- **The blocks that the loop handles.** Each block of the list ends up stored, in the buffer with its witness, or
recorded, unless it is the one whose insertion is fatal or stands behind it. -/
theorem connectBlocks_handles (sched : StateRoot.Schedule) (blocks : List (Block × ExecutionWitness)) (t : EngineTree E)
    (h : Room blocks t.blockBuffer) (y : Block × ExecutionWitness) (hy : y ∈ blocks) :
    (connectBlocks sched blocks t).2.Stored y.1.hash ∨
      ((connectBlocks sched blocks t).2.blockBuffer.blocks.get y.1.hash = some y.1 ∧
        (connectBlocks sched blocks t).2.blockBuffer.witnesses.get y.1.hash = some y.2) ∨
      Records sched y.1.hash blocks t ∨
      ∃ z post, fatalSplit sched blocks t = some (z, post) ∧ (y = z ∨ y ∈ post) := by
  induction blocks generalizing t with
  | nil => cases hy
  | cons x blocks ih =>
    obtain ⟨hround, hlands⟩ := connectOne_round t sched x
    obtain ⟨hroom, -⟩ := hround.room h
    simp only [fatalSplit, Records]
    cases hx : t.fatalError sched x with
    | some fatal =>
      refine Or.inr (Or.inr (Or.inr ⟨x, blocks, by simp, ?_⟩))
      exact List.mem_cons.1 hy
    | none =>
      rw [connectBlocks_next hx]
      simp only [true_and]
      rcases List.mem_cons.1 hy with rfl | hy
      · obtain ⟨hmono, hsame⟩ := connectBlocks_others sched blocks _ hroom
        rcases hlands hx with hstored | hbuffer | hinvalid
        · exact Or.inl (hmono hstored)
        · -- it is in the buffer, and no later block has its hash
          obtain ⟨hblocks, hwitnesses, -⟩ := bufferWith_room t y h.fits
          have hnew := (List.nodup_cons.1 h.nodup).1
          obtain ⟨hb, hw⟩ := hsame y.1.hash fun z hz he => hnew (List.mem_map.2 ⟨z, hz, he⟩)
          refine Or.inr (Or.inl ⟨?_, ?_⟩)
          · rw [hb, hbuffer, hblocks, FMap.get_set_self]
          · rw [hw, hbuffer, hwitnesses, FMap.get_set_self]
        · exact Or.inr (Or.inr (Or.inl (Or.inl ⟨rfl, hinvalid⟩)))
      · rcases ih _ hroom hy with hstored | hbuffer | hrecords | hfatal
        · exact Or.inl hstored
        · exact Or.inr (Or.inl hbuffer)
        · exact Or.inr (Or.inr (Or.inl (Or.inr hrecords)))
        · exact Or.inr (Or.inr (Or.inr hfatal))

/-- **The blocks behind the one that failed.** The loop never gets to them: they are neither stored nor recorded by it,
and none is back in the buffer. -/
theorem connectBlocks_drops (blocks : List (Block × ExecutionWitness)) (t : EngineTree E)
    (h : Room blocks t.blockBuffer) {z : Block × ExecutionWitness} {post : List (Block × ExecutionWitness)}
    (hsplit : fatalSplit sched blocks t = some (z, post)) (y : Block × ExecutionWitness) (hy : y ∈ post) :
    ((connectBlocks sched blocks t).2.Stored y.1.hash → t.Stored y.1.hash) ∧
      (connectBlocks sched blocks t).2.blockBuffer.blocks.get y.1.hash = none ∧
      ¬ Records sched y.1.hash blocks t ∧ y.1.hash ≠ z.1.hash := by
  induction blocks generalizing t with
  | nil => cases hsplit
  | cons x blocks ih =>
    obtain ⟨hround, -⟩ := connectOne_round t sched x
    obtain ⟨hroom, hsame⟩ := hround.room h
    have hnew := (List.nodup_cons.1 h.nodup).1
    have hlater : ∀ y ∈ blocks, y.1.hash ≠ x.1.hash := fun y hy he => hnew (List.mem_map.2 ⟨y, hy, he⟩)
    simp only [fatalSplit] at hsplit
    simp only [Records]
    cases hx : t.fatalError sched x with
    | some fatal =>
      rw [hx] at hsplit
      cases hsplit
      rw [connectBlocks_fatal hx]
      have hne := hlater y hy
      refine ⟨fun hs => (hround.new hs).resolve_left hne, hroom.absent y hy, ?_, hne⟩
      rintro (⟨he, -⟩ | ⟨hcontra, -⟩)
      · exact hne he.symm
      · cases hcontra
    | none =>
      rw [hx] at hsplit
      rw [connectBlocks_next hx]
      obtain ⟨hstored, habsent, hnot, hnz⟩ := ih _ hroom hsplit
      obtain ⟨pre, rfl⟩ := fatalSplit_append hsplit
      have hne := hlater y (List.mem_append_right _ (List.mem_cons_of_mem _ hy))
      refine ⟨fun hs => (hround.new (hstored hs)).resolve_left hne, habsent, ?_, hnz⟩
      rintro (⟨he, -⟩ | ⟨-, hrecords⟩)
      · exact hne he.symm
      · exact hnot hrecords

/-! ## Nothing is lost -/

/-- the blocks taken from a buffer fit back into what is left of it -/
theorem taken_room {β : BlockBuffer} (hβ : β.Reachable) (ord : Enumeration B256) (p : B256) :
    Room (BlockBuffer.removeBlockWithChildren ord β p).1 (BlockBuffer.removeBlockWithChildren ord β p).2 := by
  obtain ⟨limit, history, haged⟩ := hβ.aged
  obtain ⟨htaken, -⟩ := BlockBuffer.removeBlockWithChildren_spec ord β p haged.keyed hβ.linkSound
  have haged' := BlockBuffer.removeBlockWithChildren_aged ord p haged
  refine ⟨?_, htaken.nodup, htaken.gone⟩
  rw [haged'.lru_limit]
  exact htaken.fits haged haged'

/-- what a caller of `try_connect_buffered_blocks` may expect of the blocks that were buffered: `recorded` says which
hashes count as recorded in the invalid header cache -/
def Conserves (t : EngineTree E) (sched : StateRoot.Schedule) (parentHash : B256) (recorded : B256 → Prop) : Prop :=
  ∀ h b, t.blockBuffer.blocks.get h = some b →
    (t.tryConnectBufferedBlocks sched parentHash).2.Stored h ∨
      ((t.tryConnectBufferedBlocks sched parentHash).2.blockBuffer.blocks.get h = some b ∧
        (t.tryConnectBufferedBlocks sched parentHash).2.blockBuffer.witnesses.get h = t.blockBuffer.witnesses.get h) ∨
      recorded h ∨
      ∃ x post, fatalSplit sched (t.takenFor sched.order parentHash) (t.takeFor sched.order parentHash) =
        some (x, post) ∧ x.1.hash = h

/-- the hash was in the invalid header cache before the call, or the call puts it there -/
def Recorded (t : EngineTree E) (sched : StateRoot.Schedule) (parentHash h : B256) : Prop :=
  (∃ header, t.invalidHeader h = some header) ∨
    Records sched h (t.takenFor sched.order parentHash) (t.takeFor sched.order parentHash)

/-- when the insertion of a block taken is fatal, every block taken behind it was stored or recorded before -/
def NothingBehindFatal (t : EngineTree E) (sched : StateRoot.Schedule) (parentHash : B256) : Prop :=
  ∀ x post, fatalSplit sched (t.takenFor sched.order parentHash) (t.takeFor sched.order parentHash) = some (x, post) →
    ∀ y ∈ post, t.Stored y.1.hash ∨ ∃ header, t.invalidHeader y.1.hash = some header

theorem conserves_iff (t : EngineTree E) (sched : StateRoot.Schedule) (parentHash : B256)
    (hβ : t.blockBuffer.Reachable) :
    Conserves t sched parentHash (t.Recorded sched parentHash) ↔ NothingBehindFatal t sched parentHash := by
  have hroom : Room (t.takenFor sched.order parentHash) (t.takeFor sched.order parentHash).blockBuffer :=
    taken_room hβ sched.order parentHash
  obtain ⟨limit, history, haged⟩ := hβ.aged
  obtain ⟨htaken, -⟩ := BlockBuffer.removeBlockWithChildren_spec sched.order t.blockBuffer parentHash haged.keyed
    hβ.linkSound
  have hleaves := BlockBuffer.removeBlockWithChildren_leaves sched.order t.blockBuffer parentHash
  obtain ⟨hmono, hothers⟩ := connectBlocks_others sched _ _ hroom
  constructor
  · intro hcons x post hsplit y hy
    obtain ⟨pre, hpre⟩ := fatalSplit_append hsplit
    have hmem : y ∈ t.takenFor sched.order parentHash := by
      rw [hpre]
      exact List.mem_append_right _ (List.mem_cons_of_mem _ hy)
    obtain ⟨hstored, habsent, hnot, hne⟩ := connectBlocks_drops _ _ hroom hsplit y hy
    rcases hcons y.1.hash y.1 (htaken.taken y hmem).1 with h | ⟨h, -⟩ | h | ⟨x', post', hsplit', h⟩
    · exact Or.inl (hstored h)
    · rw [show (t.tryConnectBufferedBlocks sched parentHash).2.blockBuffer.blocks.get y.1.hash = none from habsent] at h
      cases h
    · rcases h with h | h
      · exact Or.inr h
      · exact absurd h hnot
    · rw [hsplit] at hsplit'
      cases hsplit'
      exact absurd h.symm hne
  · intro hnothing h b hb
    rcases hleaves.left h b hb with hleft | ⟨x, hx, rfl, hw, -⟩
    · -- the block was not taken
      have hother : ∀ y ∈ t.takenFor sched.order parentHash, y.1.hash ≠ h := by
        rintro y hy rfl
        rw [htaken.gone y hy] at hleft
        cases hleft
      obtain ⟨hsameb, hsamew⟩ := hothers h hother
      exact Or.inr (Or.inl ⟨hsameb.trans hleft, hsamew.trans (hleaves.kept h b hleft).1⟩)
    · have hxh : x.1.hash = h := haged.keyed h _ hb
      subst hxh
      rcases connectBlocks_handles sched _ _ hroom x hx with h | ⟨h, hw'⟩ | h | ⟨z, post, hsplit, h⟩
      · exact Or.inl h
      · exact Or.inr (Or.inl ⟨h, hw'.trans hw.symm⟩)
      · exact Or.inr (Or.inr (Or.inl (Or.inr h)))
      · rcases h with rfl | hpost
        · exact Or.inr (Or.inr (Or.inr ⟨x, post, hsplit, rfl⟩))
        · rcases hnothing z post hsplit x hpost with hs | hrec
          · exact Or.inl (hmono hs)
          · exact Or.inr (Or.inr (Or.inl (Or.inl hrec)))

/-! ## With a cache that forgets nothing -/

theorem latestValidLoop_entries (hc : E.cache.Retains) (t : EngineTree E) (fuel : ℕ) (cache : E.cache.Cache)
    (current : Option BlockWithParent) (k : B256) :
    (E.cache.entries (t.latestValidLoop fuel cache current).2).get k = (E.cache.entries cache).get k := by
  induction fuel generalizing cache current with
  | zero => rfl
  | succ fuel ih =>
    cases current with
    | none => rfl
    | some current =>
      simp only [latestValidLoop]
      split_ifs
      · exact hc.get cache current.parent k
      · exact (ih _ _).trans (hc.get cache current.parent k)

theorem latestValidHash_entries (hc : E.cache.Retains) (t : EngineTree E) (parentHash k : B256) :
    (t.latestValidHashForInvalidPayload parentHash).2.invalidHeader k = t.invalidHeader k := by
  simp only [latestValidHashForInvalidPayload]
  split_ifs
  · rfl
  · exact (latestValidLoop_entries hc t _ _ _ k).trans (hc.get _ _ k)

/-- a round adds to the cache exactly the block that it finds invalid -/
theorem connectOne_entries (hc : E.cache.Retains) (t : EngineTree E) (sched : StateRoot.Schedule)
    (x : Block × ExecutionWitness) (k : B256) :
    (∃ header, (t.connectOne sched x).invalidHeader k = some header) ↔
      (∃ header, t.invalidHeader k = some header) ∨ x.1.hash = k ∧ t.InsertsInvalid sched x := by
  have hi := insertBlock_inserts t sched x.1 (some x.2)
  simp only [connectOne, connectBlocks, InsertsInvalid]
  cases hr : t.insertBlock sched x.1 (some x.2) with
  | mk result t₁ =>
    rw [hr] at hi
    have hsame := hi.invalidHeader k
    cases result with
    | ok result =>
      simp only
      split_ifs
      · rw [makeCanonical_invalidHeader, hsame]
        simp
      · rw [hsame]
        simp
    | error kind =>
      simp only [onInsertBlockError]
      cases he : E.ensureValidationError kind with
      | error fatal =>
        rw [hsame]
        simp [he]
      | ok text =>
        have hentries := hc.insert (t₁.latestValidHashForInvalidPayload x.1.parentHash).2.invalidHeaders
          x.1.blockWithParent k
        have hlookup := latestValidHash_entries hc t₁ x.1.parentHash k
        simp only [invalidHeader] at hsame hlookup ⊢
        rw [hentries, hlookup, hsame]
        by_cases hk : k = x.1.hash
        · subst hk
          cases (E.cache.entries t.invalidHeaders).get x.1.hash <;>
            simp [SealedHeader.blockWithParent, SealedHeader.numHash, he]
        · have hk' : ¬ x.1.hash = k := fun h => hk h.symm
          simp [SealedHeader.blockWithParent, SealedHeader.numHash, hk, hk']

theorem connectBlocks_entries (hc : E.cache.Retains) (blocks : List (Block × ExecutionWitness)) (t : EngineTree E)
    (k : B256) :
    (∃ header, (connectBlocks sched blocks t).2.invalidHeader k = some header) ↔
      (∃ header, t.invalidHeader k = some header) ∨ Records sched k blocks t := by
  induction blocks generalizing t with
  | nil => simp [connectBlocks, Records]
  | cons x blocks ih =>
    have hone := connectOne_entries hc t sched x k
    simp only [Records]
    cases hx : t.fatalError sched x with
    | some fatal =>
      rw [connectBlocks_fatal hx, hone]
      simp
    | none =>
      rw [connectBlocks_next hx, ih, hone]
      simp only [true_and]
      exact or_assoc

/-- **Connecting buffered blocks loses nothing** if and only if, when the insertion of a block taken is fatal, every
block taken behind it was stored or recorded before. A block counts as recorded when the call puts its header into the
invalid header cache or finds it there; with a cache that forgets nothing, when the cache has it after the call. -/
theorem tryConnect_conserves_iff (t : EngineTree E) (sched : StateRoot.Schedule) (parentHash : B256)
    (hβ : t.blockBuffer.Reachable) :
    (Conserves t sched parentHash (t.Recorded sched parentHash) ↔ NothingBehindFatal t sched parentHash) ∧
      (E.cache.Retains →
        (Conserves t sched parentHash (fun h => ∃ header,
          (t.tryConnectBufferedBlocks sched parentHash).2.invalidHeader h = some header) ↔
            NothingBehindFatal t sched parentHash)) := by
  have hiff := conserves_iff t sched parentHash hβ
  refine ⟨hiff, fun hc => ?_⟩
  rw [← hiff]
  have hentries : (fun h => ∃ header,
      (t.tryConnectBufferedBlocks sched parentHash).2.invalidHeader h = some header) = t.Recorded sched parentHash := by
    funext h
    exact propext (connectBlocks_entries hc _ _ h)
  rw [hentries]

/-! ## Two descendants -/

/-- an environment in which the junk witness cannot be revealed -/
def strictEnv : Env :=
  { smallEnv with
    trie := { smallTrie with
      revealWitness := fun _ root nodes =>
        if nodes.get 2 = some [2] then .error "missing node" else .ok (root, nodes) } }

/-- both children of genesis are buffered with a witness: block 2 with the one given, block 1001 with a good one -/
def bothChildren (E : Env) (witness : ExecutionWitness) : EngineTree E :=
  Run.run step (launch E ⟨∅, none, none⟩ Chain.twoBranches.genesis)
    [.bufferBlock (Chain.mainBlock 1), .bufferWitness 2 witness ∅, .bufferBlock (Chain.sideBlock 1),
      .bufferWitness 1001 smallWitness ∅]

theorem bothChildren_reachable (E : Env) (witness : ExecutionWitness) :
    (bothChildren E witness).blockBuffer.Reachable := by
  refine ⟨256, [.insertBlock (Chain.mainBlock 1), .insertWitness 2 witness ∅, .insertBlock (Chain.sideBlock 1),
    .insertWitness 1001 smallWitness ∅], by decide, ?_, rfl⟩
  intro b b' hb hb' heq
  simp only [List.mem_cons, BufferOp.insertBlock.injEq, reduceCtorEq, List.not_mem_nil, or_false, false_or] at hb hb'
  rcases hb with rfl | rfl <;> rcases hb' with rfl | rfl
  · rfl
  · exact absurd heq (by decide)
  · exact absurd heq (by decide)
  · rfl

/-- one child is found invalid and recorded, the other one is stored -/
theorem tryConnect_conserves_both :
    Conserves (bothChildren smallEnv junkWitness) StateRoot.sortedSchedule 1 fun h => ∃ header,
      ((bothChildren smallEnv junkWitness).tryConnectBufferedBlocks StateRoot.sortedSchedule 1).2.invalidHeader h =
        some header := by
  refine ((tryConnect_conserves_iff _ _ _ (bothChildren_reachable smallEnv junkWitness)).2 smallCache_retains).2 ?_
  intro x post hsplit
  have hnone : (fatalSplit StateRoot.sortedSchedule
      ((bothChildren smallEnv junkWitness).takenFor StateRoot.sortedSchedule.order 1)
      ((bothChildren smallEnv junkWitness).takeFor StateRoot.sortedSchedule.order 1)).isNone = true := by decide +kernel
  rw [hsplit] at hnone
  cases hnone

/-- a witness that cannot be revealed ends the loop, and the sibling behind it is nowhere afterwards -/
theorem tryConnect_loses_sibling :
    ¬ Conserves (bothChildren strictEnv junkWitness) StateRoot.sortedSchedule 1 fun h => ∃ header,
      ((bothChildren strictEnv junkWitness).tryConnectBufferedBlocks StateRoot.sortedSchedule 1).2.invalidHeader h =
        some header := by
  intro h
  have hbuffered : (bothChildren strictEnv junkWitness).blockBuffer.blocks.get 1001 = some (Chain.sideBlock 1) := by
    decide +kernel
  have hstore : ((bothChildren strictEnv junkWitness).tryConnectBufferedBlocks StateRoot.sortedSchedule
      1).2.provider.chainState.blocksByHash.get 1001 = none := by decide +kernel
  have hbuffer : ((bothChildren strictEnv junkWitness).tryConnectBufferedBlocks StateRoot.sortedSchedule
      1).2.blockBuffer.blocks.get 1001 = none := by decide +kernel
  have hcache : ((bothChildren strictEnv junkWitness).tryConnectBufferedBlocks StateRoot.sortedSchedule
      1).2.invalidHeader 1001 = none := by decide +kernel
  have hfatal : (fatalSplit StateRoot.sortedSchedule
      ((bothChildren strictEnv junkWitness).takenFor StateRoot.sortedSchedule.order 1)
      ((bothChildren strictEnv junkWitness).takeFor StateRoot.sortedSchedule.order 1)).map (fun s => s.1.1.hash) =
        some 2 := by decide +kernel
  rcases h 1001 _ hbuffered with ⟨b, hb⟩ | ⟨h, -⟩ | ⟨header, h⟩ | ⟨x, post, hsplit, hx⟩
  · rw [hstore] at hb
    cases hb
  · rw [hbuffer] at h
    cases h
  · rw [hcache] at h
    cases h
  · rw [hsplit, Option.map_some, hx] at hfatal
    exact absurd (Option.some.inj hfatal) (by decide)

end EngineTree

end Ress
