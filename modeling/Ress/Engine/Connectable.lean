/-
No connectable block is left behind.

A buffered block can be inserted once it is ready and its parent is stored. It becomes ready when its witness or its
last bytecode arrives; its parent is stored by a payload, a downloaded block, the loop over buffered descendants, or a
finalized download. All of these but the last take the block out of the buffer then. The finalized download stores a
block and does not look for its children.

- `BlockBuffer.Settled U A`: ready blocks other than those of `U` are linked to their parents, and these are not in `A`.
- `Drained W U`: so it is with the stored blocks for `A`; `U` holds the hashes that the engine still has to try.
- `runs_noneLeft`: no connectable block is left in any state of a run in which no finalized download stores the parent
  of a ready block.
- `finalized_leaves_child`: a run in which it does.
-/
import Ress.Engine.Coherence

namespace Ress

namespace BlockBuffer

/-- the hashes of a list of blocks -/
def hashesOf (l : List (Block × ExecutionWitness)) : Set B256 := {k | ∃ x ∈ l, x.1.hash = k}

/-- every ready block, apart from those of `U`, is linked to its parent, which is not in `A` -/
def Settled (U A : Set B256) (β : BlockBuffer) : Prop :=
  ∀ h b, β.blocks.get h = some b → β.Ready h → h ∉ U → h ∈ β.children b.parentHash ∧ b.parentHash ∉ A

variable {U U' A A' : Set B256} {β β' : BlockBuffer}

theorem Settled.mono (h : Settled U A β) (hU : U ⊆ U') (hA : A' ⊆ A) : Settled U' A' β := by
  intro k b hb hr hk
  obtain ⟨hlink, hp⟩ := h k b hb hr fun hu => hk (hU hu)
  exact ⟨hlink, fun ha => hp (hA ha)⟩

theorem Settled.removes (h : Settled U A β) (hr : Removes β β') : Settled U A β' := by
  intro k b hb hready hk
  obtain ⟨hlink, hp⟩ := h k b (hr.blocks k b hb) (hr.toShrinks.ready hready) hk
  exact ⟨hr.linked k b hb hready hlink, hp⟩

/-- a block that is inserted is linked anew -/
theorem Settled.insertBlock {b : Block} (h : Settled (insert b.hash U) A β)
    (hb : β.Ready b.hash → b.hash ∉ U → b.parentHash ∉ A) : Settled U A (β.insertBlock b) := by
  refine Settled.removes ?_ (insertBlock_removes β b)
  intro k b' hg hr hk
  have hready : β.Ready k := hr
  rw [children_addBlock]
  change (β.blocks.set b.hash b).get k = some b' at hg
  rw [FMap.get_set] at hg
  split_ifs at hg with hkb
  · cases hg
    subst hkb
    rw [if_pos rfl]
    exact ⟨Finset.mem_insert_self _ _, hb hready hk⟩
  · have hk' : k ∉ insert b.hash U := by
      intro hmem
      exact (Set.mem_insert_iff.1 hmem).elim hkb hk
    obtain ⟨hlink, hp⟩ := h k b' hg hready hk'
    refine ⟨?_, hp⟩
    split_ifs
    · exact Finset.mem_insert_of_mem hlink
    · exact hlink

theorem Settled.insertWitness (h : Settled U A β) (hash : B256) (w : ExecutionWitness) (m : Finset B256) :
    Settled (insert hash U) A (β.insertWitness hash w m) := by
  intro k b hb hr hk
  have hne : k ≠ hash := fun heq => hk (heq ▸ Set.mem_insert _ _)
  have hku : k ∉ U := fun hu => hk (Set.mem_insert_of_mem _ hu)
  refine h k b hb ?_ hku
  obtain ⟨⟨w', hw⟩, hm⟩ := hr
  unfold BlockBuffer.insertWitness missing at *
  simp only [FMap.get_set, if_neg hne] at hw
  refine ⟨⟨w', hw⟩, ?_⟩
  unfold missing
  split_ifs at hm with hempty
  · rw [FMap.get_set_ne _ _ hne] at hm
    exact hm
  · exact hm

/-- a block whose witness lacks a bytecode is not ready -/
theorem insertWitness_not_ready (β : BlockBuffer) (hash : B256) (w : ExecutionWitness) {m : Finset B256} (hm : m ≠ ∅) :
    ¬ (β.insertWitness hash w m).Ready hash := by
  rintro ⟨-, hmissing⟩
  unfold BlockBuffer.insertWitness missing at hmissing
  simp only at hmissing
  rw [if_pos hm, FMap.get_set_self] at hmissing
  exact hm hmissing

/-- a bytecode makes only the blocks ready that it unlocks -/
theorem Settled.onBytecodeReceived (h : Settled ∅ A β) (codeHash : B256) :
    Settled {k | k ∈ (β.onBytecodeReceived codeHash).1} A (β.onBytecodeReceived codeHash).2 := by
  intro k b hb hr hk
  obtain ⟨hw, hm⟩ := hr
  rw [missing_onBytecodeReceived] at hm
  refine h k b hb ⟨hw, ?_⟩ (Set.notMem_empty k)
  cases hg : β.missingBytecodes.get k with
  | none =>
    unfold missing
    rw [hg]
    rfl
  | some m => exact absurd (Finset.mem_filter.2 ⟨FMap.mem_keys_of_get hg, hm⟩) hk

/-- **After the descendants are taken** no ready block waits for the given block or for one of those taken. -/
theorem Settled.takes (h : Settled U A β) (ord : Enumeration B256) (p : B256) (hk : β.Keyed) (hl : β.LinkSound) :
    Settled U (insert p A ∪ hashesOf (removeBlockWithChildren ord β p).1) (removeBlockWithChildren ord β p).2 := by
  obtain ⟨-, hrem, hlive, -⟩ := removeBlockWithChildren_spec ord β p hk hl
  intro k b hb hr hku
  obtain ⟨hlink, hp⟩ := h k b (hrem.blocks k b hb) (hrem.toShrinks.ready hr) hku
  obtain ⟨hnp, hnot⟩ := hlive k b hb hr hlink
  refine ⟨hrem.linked k b hb hr hlink, ?_⟩
  rintro ((heq | ha) | ⟨x, hx, heq⟩)
  · exact hnp heq
  · exact hp ha
  · exact hnot x hx heq.symm

end BlockBuffer

namespace EngineTree

open BlockBuffer (Settled hashesOf)

variable {E : Env}

variable {W : World} {t t' : EngineTree E} {U A : Set B256}

/-! ## Inserting a block -/

/-- a block goes to the buffer when its parent is not stored, or when it comes without a witness and there is none -/
theorem Inserts.settled {b : Block} {mw : Option ExecutionWitness} {r : Except InsertBlockErrorKind InsertPayloadOk}
    (hi : Inserts t b mw r t') (h : Settled U A t.blockBuffer) (hmw : mw = none → ¬ t.blockBuffer.Ready b.hash)
    (hA : ¬ t'.Stored b.hash → ¬ t'.Stored b.parentHash → b.parentHash ∉ A) : Settled U A t'.blockBuffer := by
  have hmore : Settled (insert b.hash U) A t.blockBuffer := h.mono (Set.subset_insert _ _) subset_rfl
  cases hi with
  | alreadySeen => exact h
  | refused => exact h
  | valid => exact h
  | disconnected head missing hb hp =>
    cases mw with
    | none => exact hmore.insertBlock fun _ _ => hA hb hp
    | some w => exact (h.insertWitness b.hash w ∅).insertBlock fun _ _ => hA hb hp
  | noWitness hnone => exact hmore.insertBlock fun hr _ => absurd hr (hmw hnone)

/-! ## The loop over buffered descendants -/

/-- one round: the parent of a block that goes back to the buffer is not among the blocks that follow -/
theorem Inserts.settled_round {x : Block × ExecutionWitness} {blocks : List (Block × ExecutionWitness)} {p : B256}
    {r : Except InsertBlockErrorKind InsertPayloadOk} (hi : Inserts t x.1 (some x.2) r t')
    (h : Settled U (t.storedHashes ∪ hashesOf (x :: blocks)) t.blockBuffer) (hp : t.Stored p)
    (horder : ∀ y ∈ blocks, x.1.hash = p ∨ x.1.parentHash ≠ y.1.hash) :
    Settled U (t'.storedHashes ∪ hashesOf blocks) t'.blockBuffer ∧ t'.Stored p := by
  obtain ⟨hsub, hsup⟩ := hi.storedHashes_sub
  refine ⟨?_, hsub hp⟩
  refine hi.settled (h.mono subset_rfl ?_) (by simp) ?_
  · rintro k (hk | ⟨y, hy, rfl⟩)
    · rcases hsup hk with rfl | hk
      · exact Or.inr ⟨x, List.mem_cons_self, rfl⟩
      · exact Or.inl hk
    · exact Or.inr ⟨y, List.mem_cons_of_mem _ hy, rfl⟩
  · rintro hx hparent (hk | ⟨y, hy, heq⟩)
    · exact hparent hk
    · rcases horder y hy with rfl | hne
      · exact hx (hsub hp)
      · exact hne heq.symm

/-- **The loop.** It starts with no ready block that waits for a stored block or for one of the list, in which parents
come before children; it ends with none that waits for a stored block. -/
theorem Connects.settled {blocks : List (Block × ExecutionWitness)} {p : B256} {r : Except InsertBlockFatalError Unit}
    (hc : Connects blocks t r t') (h : Settled U (t.storedHashes ∪ hashesOf blocks) t.blockBuffer) (hp : t.Stored p)
    (horder : blocks.Pairwise fun x y => x.1.hash = p ∨ x.1.parentHash ≠ y.1.hash) :
    Settled U t'.storedHashes t'.blockBuffer := by
  induction hc with
  | nil t => exact h.mono subset_rfl Set.subset_union_left
  | @inserted child w blocks t t₁ t₂ result r hi _ ih =>
    obtain ⟨hhead, htail⟩ := List.pairwise_cons.1 horder
    obtain ⟨h₁, hp₁⟩ := Inserts.settled_round (x := (child, w)) hi h hp hhead
    exact ih h₁ hp₁ htail
  | @target child w blocks t t₁ t₂ r hi _ ih =>
    obtain ⟨hhead, htail⟩ := List.pairwise_cons.1 horder
    obtain ⟨h₁, hp₁⟩ := Inserts.settled_round (x := (child, w)) hi h hp hhead
    have hstored := makeCanonical_storedHashes t₁ child.hash
    refine ih ?_ (hstored.symm.subset hp₁) htail
    rw [hstored, (makeCanonical_frame t₁ child.hash).1]
    exact h₁
  | @failed child w blocks t t₁ t₂ t₃ kind status r hi hf _ ih =>
    obtain ⟨hhead, htail⟩ := List.pairwise_cons.1 horder
    obtain ⟨h₁, hp₁⟩ := Inserts.settled_round (x := (child, w)) hi h hp hhead
    obtain ⟨hbuffer, hstored⟩ := hf.frame
    refine ih ?_ (hstored.symm.subset hp₁) htail
    rw [hstored, hbuffer]
    exact h₁
  | @fatal child w blocks t t₁ t₂ kind fatal hi hf =>
    obtain ⟨hhead, -⟩ := List.pairwise_cons.1 horder
    obtain ⟨h₁, -⟩ := Inserts.settled_round (x := (child, w)) hi h hp hhead
    obtain ⟨hbuffer, hstored⟩ := hf.frame
    rw [hstored, hbuffer]
    exact h₁.mono subset_rfl Set.subset_union_left

/-! ## Receiving a block -/

/-- the tree is well formed, and every ready block, apart from those of `U`, waits for a parent that is not stored -/
structure Drained (W : World) (U : Set B256) (t : EngineTree E) : Prop where
  wf : Wf W t
  buffer : Settled U t.storedHashes t.blockBuffer

theorem Drained.mono (h : Drained W U t) {U' : Set B256} (hU : U ⊆ U') : Drained W U' t :=
  ⟨h.wf, h.buffer.mono hU subset_rfl⟩

theorem Drained.withBuffer (h : Drained W U t) {buffer : BlockBuffer} (hr : BlockBuffer.Removes t.blockBuffer buffer) :
    Drained W U (t.withBuffer buffer) :=
  ⟨⟨h.wf.chain, h.wf.buffer.shrinks hr.toShrinks⟩, h.buffer.removes hr⟩

theorem Drained.forgets (h : Drained W U t) (hf : Forgets t t') : Drained W U t' := by
  refine ⟨hf.wf h.wf, ?_⟩
  rw [hf.storedHashes, hf.blockBuffer]
  exact h.buffer

theorem Drained.makeCanonical (h : Drained W U t) (target : B256) : Drained W U (t.makeCanonical target) := by
  refine ⟨h.wf.makeCanonical target, ?_⟩
  rw [makeCanonical_storedHashes, (makeCanonical_frame t target).1]
  exact h.buffer

theorem Drained.tracks (h : Drained W U t) (ht : Tracks t t') : Drained W U t' := by
  refine ⟨ht.wf h.wf, ?_⟩
  unfold EngineTree.storedHashes Stored
  rw [ht.blockBuffer, ht.provider]
  exact h.buffer

/-- **Receiving a block.** One that becomes a parent takes its ready descendants out of the buffer; one that goes to
the buffer waits for a parent that is not stored, or for its witness. -/
theorem Receives.drained {ord : Enumeration B256} {check : B256} {b : Block} {mw : Option ExecutionWitness} {r : Answer}
    (hr : Receives ord t check b mw r t') (h : Drained W U t) (hb : W.Knows b.toSealedHeader)
    (hmw : mw = none → ¬ t.blockBuffer.Ready b.hash) : Drained W U t' := by
  refine ⟨hr.wf h.wf hb, ?_⟩
  have hinsert : ∀ {t₁ t₂ : EngineTree E} {result : Except InsertBlockErrorKind InsertPayloadOk}, Forgets t t₁ →
      Inserts t₁ b mw result t₂ → Settled U t₁.storedHashes t₂.blockBuffer := by
    intro t₁ t₂ result hf hi
    have h₁ := h.forgets hf
    refine hi.settled h₁.buffer ?_ fun _ hp hmem => hp (hi.storedHashes_sub.1 hmem)
    rw [hf.blockBuffer]
    exact hmw
  have hkept : ∀ {t₁ t₂ : EngineTree E} {result : Except InsertBlockErrorKind InsertPayloadOk}, Forgets t t₁ →
      Inserts t₁ b mw result t₂ → result ≠ .ok (.inserted .valid) → Settled U t₂.storedHashes t₂.blockBuffer := by
    intro t₁ t₂ result hf hi hne
    rw [hi.storedHashes_eq hne]
    exact hinsert hf hi
  have hconnect : ∀ {t₁ t₂ t₃ : EngineTree E} {result : InsertPayloadOk} {r : Except InsertBlockFatalError Unit},
      Forgets t t₁ → Inserts t₁ b mw (.ok result) t₂ → (result = .inserted .valid ∨ result = .alreadySeen) →
      Connects (t₂.takenFor ord b.hash) (t₂.takeFor ord b.hash) r t₃ → Settled U t₃.storedHashes t₃.blockBuffer := by
    intro t₁ t₂ t₃ result r hf hi hres hc
    have hwf := hi.wf (hf.wf h.wf) hb
    have htaken := (hinsert hf hi).takes ord b.hash hwf.buffer.keyed hwf.buffer.linkSound
    have horder := (BlockBuffer.removeBlockWithChildren_spec ord t₂.blockBuffer b.hash hwf.buffer.keyed
      hwf.buffer.linkSound).2.2.2
    refine hc.settled (htaken.mono subset_rfl ?_) (hi.stored hres) horder
    exact Set.union_subset_union_left _ hi.storedHashes_sub.2
  cases hr with
  | rejected _ _ hf => exact (h.forgets hf).buffer
  | connected _ hf hi hres hc => exact hconnect hf hi hres hc
  | connectFailed _ hf hi hres hc => exact hconnect hf hi hres hc
  | seen _ hf hi => exact hkept hf hi (by simp)
  | kept _ hf hi hne => exact hkept hf hi (by simpa using hne)
  | failed _ hf hi hfail =>
    obtain ⟨hbuffer, hstored⟩ := hfail.frame
    rw [hbuffer, hstored]
    exact hkept hf hi (by simp)
  | fatal _ hf hi hfail =>
    obtain ⟨hbuffer, hstored⟩ := hfail.frame
    rw [hbuffer, hstored]
    exact hkept hf hi (by simp)

/-! ## Messages -/

theorem Drained.messages (h : Drained W U t) {sched : StateRoot.Schedule} {message : BeaconEngineMessage E}
    (hknown : MessageKnown W message) (hm : ConsensusEngine.Messages sched t message t') : Drained W U t' := by
  have htake : ∀ hash, Drained W U (t.withBuffer (t.blockBuffer.removeWitness hash).2) := by
    intro hash
    exact h.withBuffer (BlockBuffer.removeWitness_removes _ _).1
  apply hm.keeps h
  · exact fun t₁ target h₁ => h₁.makeCanonical target
  · exact fun t₁ t₂ hf h₁ => h₁.forgets hf
  · exact fun t₁ t₂ ht h₁ => h₁.tracks ht
  · exact htake
  · rintro payload tx b check answer t₁ rfl hb hr
    apply hr.drained (htake _) (hknown b hb)
    -- the witness of the block is not in the buffer any more
    rw [E.validator.wellFormed_hash payload b hb]
    exact fun _ => (BlockBuffer.removeWitness_removes _ _).2.1
  · intro state answer t₁ hu
    obtain ⟨hremoves, hstored⟩ := hu.removes
    refine ⟨hu.wf h.wf, ?_⟩
    exact (h.buffer.removes hremoves).mono subset_rfl fun k hk => hstored k hk

theorem Drained.onFinalizedBlock (h : Drained W ∅ t) {b : Block} {l : List SealedHeader}
    (hb : W.Knows b.toSealedHeader) (hl : ∀ x ∈ l, W.Knows x)
    (hchild : ∀ k c, t.blockBuffer.blocks.get k = some c → t.blockBuffer.Ready k → k ≠ b.hash → c.parentHash ≠ b.hash) :
    Drained W {b.hash} (t.onFinalizedBlock b l) := by
  refine ⟨⟨?_, h.wf.buffer⟩, ?_⟩
  · rw [onFinalizedBlock_chain]
    exact h.wf.chain.onFinalizedBlock hb hl
  · intro k c hc hr hk
    obtain ⟨hlink, hp⟩ := h.buffer k c hc hr (Set.notMem_empty k)
    refine ⟨hlink, fun hstored => ?_⟩
    rcases (onFinalizedBlock_stored t b l c.parentHash).1 hstored with heq | hstored
    · exact hchild k c hc hr hk heq
    · exact hp hstored

theorem Drained.onBytecode (h : Drained W ∅ t) (codeHash : B256) (bytecode : Bytecode) :
    Drained W {k | k ∈ (t.onBytecode codeHash bytecode).1} (t.onBytecode codeHash bytecode).2 := by
  refine ⟨h.wf.onBytecode codeHash bytecode, ?_⟩
  unfold EngineTree.onBytecode RessProvider.insertBytecode
  cases t.provider.database.insertBytecode codeHash bytecode with
  | error error => exact h.buffer.mono (Set.empty_subset _) subset_rfl
  | ok database => exact h.buffer.onBytecodeReceived codeHash

end EngineTree

namespace ConsensusEngine

open EngineTree (Drained)

variable {E : Env} {W : World} {e : ConsensusEngine E} {U : Set B256}

/-- a downloaded block is known; a finalized one comes with known headers, and no other ready block is its child -/
def OutcomeClear (W : World) (t : EngineTree E) : DownloadData → Prop
  | .fullBlock block => W.Knows block.toSealedHeader
  | .finalizedBlock block ancestors => W.Knows block.toSealedHeader ∧ (∀ x ∈ ancestors, W.Knows x) ∧
      ∀ h b, t.blockBuffer.blocks.get h = some b → t.blockBuffer.Ready h → h ≠ block.hash → b.parentHash ≠ block.hash
  | _ => True

/-- an outcome makes only the blocks ready that it unlocks -/
theorem receiveOutcome_drained (h : Drained W ∅ e.tree) (sched : StateRoot.Schedule) {data : DownloadData}
    (hclear : OutcomeClear W e.tree data) :
    Drained W (toTry (e.receiveOutcome sched data).1) (e.receiveOutcome sched data).2.tree := by
  have hmore : ∀ U, Drained W U e.tree := fun U => h.mono (Set.empty_subset U)
  have hreceived := receiveOutcome_received e sched data
  generalize e.receiveOutcome sched data = received at hreceived ⊢
  cases hreceived with
  | finalized hrecover =>
    obtain ⟨hb, hl, hchild⟩ := hclear
    rw [toTry_singleton]
    exact h.onFinalizedBlock hb hl hchild
  | unrecovered hrecover => exact hmore _
  | @buffered block hrecover =>
    rw [toTry_singleton]
    refine ⟨⟨h.wf.chain, h.wf.buffer.insertBlock hclear⟩, ?_⟩
    exact (hmore (insert block.hash {block.hash})).buffer.insertBlock fun _ hnot => absurd (Set.mem_singleton _) hnot
  | dropped hrecover => exact hmore _
  | lookupFailed hmissing => exact hmore _
  | @complete blockHash witness hmissing =>
    rw [toTry_singleton]
    refine ⟨⟨h.wf.chain, h.wf.buffer.insertWitness blockHash witness ∅⟩, ?_⟩
    refine (h.buffer.insertWitness blockHash witness ∅).mono ?_ subset_rfl
    rintro k (rfl | hk)
    · exact Set.mem_singleton k
    · exact absurd hk (Set.notMem_empty k)
  | @incomplete blockHash witness missing hmissing hne =>
    refine ⟨⟨h.wf.chain, h.wf.buffer.insertWitness blockHash witness missing⟩, ?_⟩
    intro k b hb hr _
    refine h.buffer.insertWitness blockHash witness missing k b hb hr ?_
    rintro (rfl | hk)
    · exact BlockBuffer.insertWitness_not_ready e.tree.blockBuffer k witness hne hr
    · exact absurd hk (Set.notMem_empty k)
  | bytecode =>
    refine (h.onBytecode _ _).mono ?_
    intro k hk
    exact ⟨_, rfl, hk⟩

/-- a block that has been tried is not ready in the buffer, or waits for its parent again -/
theorem insertUnlocked_drained {hash : B256} (h : Drained W (insert hash U) e.tree) (sched : StateRoot.Schedule) :
    Drained W U (e.insertUnlocked sched hash).tree := by
  have hrem := BlockBuffer.removeBlock_removes e.tree.blockBuffer hash
  have hmore : Drained W (insert hash U) (e.tree.withBuffer (e.tree.blockBuffer.removeBlock hash).2) :=
    h.withBuffer hrem
  obtain ⟨-, hnot, -⟩ := BlockBuffer.removeBlock_taken h.wf.buffer.keyed hash
  have htaken : Drained W U (e.tree.withBuffer (e.tree.blockBuffer.removeBlock hash).2) := by
    refine ⟨hmore.wf, ?_⟩
    intro k b hb hr hk
    refine hmore.buffer k b hb hr ?_
    rintro (rfl | hu)
    · exact hnot ⟨⟨b, hb⟩, hr⟩
    · exact hk hu
  rcases insertUnlocked_cases e sched hash with ⟨-, heq⟩ | ⟨b, w, answer, t, hb, -, -, hr, hf⟩
  · rw [heq]
    exact htaken
  · have hreceived := hr.drained htaken (h.wf.buffer.blocks _ _ hb).2 (by simp)
    exact hf.keeps (fun target => hreceived.makeCanonical target) hreceived

end ConsensusEngine

namespace EngineTree

variable {E : Env}

/-- no block of the buffer is ready, neither validated nor known invalid, and has its parent in the store -/
def NoneLeft (t : EngineTree E) : Prop :=
  ∀ h b, t.blockBuffer.blocks.get h = some b → t.blockBuffer.Ready h → ¬ t.Stored h → t.invalidHeader h = none →
    ¬ t.Stored b.parentHash

theorem Drained.noneLeft {W : World} {t : EngineTree E} (h : Drained W ∅ t) : NoneLeft t :=
  fun k b hb hr _ _ => (h.buffer k b hb hr (Set.notMem_empty k)).2

/-- no insertion so far ended in a fatal error -/
def NoFatal (t : EngineTree E) : Prop :=
  ∀ i ∈ t.insertions, ∀ kind, i.result = .error kind → ∃ text, E.ensureValidationError kind = .ok text

end EngineTree

namespace Node

open EngineTree (Drained NoneLeft NoFatal MessageKnown)
open ConsensusEngine (OutcomeClear)

variable {E : Env} {W : World}

/-- messages and downloads bring known blocks, and no finalized download stores the parent of another ready block -/
def EventClear (W : World) (n : Node E) : NodeEvent E → Prop
  | .arrive message => MessageKnown W message
  | .poll io => ∀ data, n.engine.delivered io = some data → OutcomeClear W n.engine.tree data

structure Clear (W : World) (n : Node E) : Prop where
  tree : Drained W ∅ n.engine.tree
  queue : ∀ message ∈ n.engine.fromBeaconEngine, MessageKnown W message

theorem Clear.step {n : Node E} (h : Clear W n) {event : NodeEvent E} (hclear : EventClear W n event) :
    Clear W (n.step event) := by
  have hfaults : ∀ (t : EngineTree E) readError writeError, Drained W ∅ t →
      Drained W ∅ (EngineTree.withFaults t readError writeError) :=
    fun t _ _ ht => ⟨⟨ht.wf.chain, ht.wf.buffer⟩, ht.buffer⟩
  refine ⟨step_tree n event h.tree hfaults ?_ ?_, ?_⟩
  · exact fun sched t t' message hmem ht hm => ht.messages (h.queue message hmem) hm
  · rintro io data rfl hdata
    have hafter : Drained W ∅ (n.engine.afterPoll io).tree := hfaults _ _ _ h.tree
    apply ConsensusEngine.onDownloadOutcome_tree (P := fun U t => Drained W U t) _ io.sched data
    · exact ConsensusEngine.receiveOutcome_drained hafter io.sched (hclear data hdata)
    · exact fun e hash U he => ConsensusEngine.insertUnlocked_drained he io.sched
  · apply queue_known h.queue
    rintro message rfl
    exact hclear

/-- **No connectable block is left behind.** In every run in which no finalized download stores the parent of another
ready block, in every state: no block of the buffer is ready, neither validated nor known invalid, with its parent in
the store. -/
theorem runs_noneLeft (W : World) (database : RessDatabase) (events : List (NodeEvent E))
    (hevents : Run.AllSteps step (EventClear W) (launch E database W.genesis) events) :
    Run.Always step (fun n => NoneLeft n.engine.tree) (launch E database W.genesis) events := by
  have hempty : BlockBuffer.Settled ∅ (EngineTree.launch E database W.genesis).storedHashes (BlockBuffer.new 256) := by
    intro h b hb
    exact absurd hb (by simp [BlockBuffer.new])
  have hstart : Clear W (launch E database W.genesis) :=
    ⟨⟨EngineTree.wf_launch W database, hempty⟩, by simp [launch, ConsensusEngine.launch]⟩
  refine Run.run_always ?_ ?_ hstart hevents
  · intro n event h hclear
    exact Clear.step h hclear
  · intro n h
    exact h.tree.noneLeft

/-! ## A finalized download that leaves a child behind -/

open Chain (mainBlock mainAncestors twoBranches)

/-- a pass in which the request for the witness of this block is ready -/
def witnessIo (n : ℕ) : ConsensusEngine.Io :=
  ⟨{ Network.silent with witness := fun hash => if hash = (mainBlock n).hash then some smallWitness else none },
    false, StateRoot.sortedSchedule, none, none⟩

def witnessReady (n : ℕ) : NodeEvent smallEnv := .poll (witnessIo n)

/-- while the finalized block is downloaded, its child arrives as a payload; the witness comes after the download -/
def lateWitnessRun : List (NodeEvent smallEnv) :=
  [forkchoice 399 (mainBlock 258).hash 1, idle false, .arrive (.newPayload (mainBlock 259, none) 2), idle false,
    finalizedReady 258, witnessReady 259]

/-- the child waits in the buffer while the finalized block is stored, and is inserted when its witness arrives -/
theorem runs_noneLeft_lateWitness :
    Run.Always step (fun n => NoneLeft n.engine.tree) (launch smallEnv ⟨∅, none, none⟩ twoBranches.genesis)
        lateWitnessRun ∧
      (smallNode (lateWitnessRun.take 5)).engine.tree.blockBuffer.blocks.get (mainBlock 259).hash =
        some (mainBlock 259) ∧
      (smallNode lateWitnessRun).engine.tree.provider.chainState.blocksByHash.get (mainBlock 259).hash =
        some (mainBlock 259) := by
  have hknown : MessageKnown twoBranches (.newPayload (mainBlock 259, none) 2 : BeaconEngineMessage smallEnv) := by
    intro b hb
    cases hb
    exact Chain.mainBlock_knows (by omega)
  have hidle : (smallNode (lateWitnessRun.take 1)).engine.delivered
      ⟨Network.silent, false, StateRoot.sortedSchedule, none, none⟩ = none := by decide +kernel
  have hidle' : (smallNode (lateWitnessRun.take 3)).engine.delivered
      ⟨Network.silent, false, StateRoot.sortedSchedule, none, none⟩ = none := by decide +kernel
  have hfinalized : (smallNode (lateWitnessRun.take 4)).engine.delivered (readyIo 258) =
      some (.finalizedBlock (mainBlock 258) (mainAncestors 258 256)) := by decide +kernel
  have hwitness : (smallNode (lateWitnessRun.take 5)).engine.delivered (witnessIo 259) =
      some (.witness (mainBlock 259).hash smallWitness) := by decide +kernel
  refine ⟨?_, by decide +kernel, by decide +kernel⟩
  apply runs_noneLeft
  refine ⟨trivial, fun data hdata => ?_, hknown, fun data hdata => ?_, fun data hdata => ?_, fun data hdata => ?_,
    trivial⟩
  · cases hidle.symm.trans hdata
  · cases hidle'.symm.trans hdata
  · cases hfinalized.symm.trans hdata
    have hdelivered := Chain.mainBlock_delivered (n := 258) (k := 256) (by omega) (by omega) le_rfl
    refine ⟨hdelivered.known, fun x hx => (hdelivered.linked.mem x hx).1, ?_⟩
    -- no block in the buffer has its witness yet
    rintro h b - ⟨⟨w, hw⟩, -⟩
    have hkeys : (smallNode (lateWitnessRun.take 4)).engine.tree.blockBuffer.witnesses.keys = ∅ := by decide +kernel
    have hmem := FMap.mem_keys_of_get hw
    exact absurd (hkeys ▸ hmem) (Finset.notMem_empty h)
  · cases hwitness.symm.trans hdata
    trivial

/-- while the finalized block is downloaded, its child arrives as a payload and then gets its witness -/
def childRun : List (NodeEvent smallEnv) :=
  [forkchoice 399 (mainBlock 258).hash 1, idle false, .arrive (.newPayload (mainBlock 259, none) 2), idle false,
    witnessReady 259, finalizedReady 258]

/-- **A finalized download leaves a connectable block behind.** Its child is ready in the buffer, neither validated nor
known invalid, and stays there with its parent in the store. -/
theorem finalized_leaves_child :
    (smallNode childRun).terminated = none ∧ NoFatal (smallNode childRun).engine.tree ∧
      Chain.Delivered twoBranches (mainBlock 258) (mainAncestors 258 256) ∧
      ¬ NoneLeft (smallNode childRun).engine.tree := by
  refine ⟨by decide +kernel, ?_, Chain.mainBlock_delivered (by omega) (by omega) le_rfl, ?_⟩
  · have hok : ∀ i ∈ (smallNode childRun).engine.tree.insertions, i.result.toBool = true := by decide +kernel
    intro i hi kind hkind
    have := hok i hi
    rw [hkind] at this
    cases this
  · intro h
    have hblock : (smallNode childRun).engine.tree.blockBuffer.blocks.get (mainBlock 259).hash =
        some (mainBlock 259) := by decide +kernel
    have hwitness : (smallNode childRun).engine.tree.blockBuffer.witnesses.get (mainBlock 259).hash =
        some smallWitness := by decide +kernel
    have hmissing : (smallNode childRun).engine.tree.blockBuffer.missing (mainBlock 259).hash = ∅ := by decide +kernel
    have hnew : (smallNode childRun).engine.tree.provider.chainState.blocksByHash.get (mainBlock 259).hash = none := by
      decide +kernel
    have hinvalid : (smallNode childRun).engine.tree.invalidHeader (mainBlock 259).hash = none := by decide +kernel
    have hparent : (smallNode childRun).engine.tree.provider.chainState.blocksByHash.get (mainBlock 258).hash =
        some (mainBlock 258) := by decide +kernel
    refine h _ _ hblock ⟨⟨_, hwitness⟩, hmissing⟩ ?_ hinvalid ⟨_, hparent⟩
    rintro ⟨b, hb⟩
    cases hnew.symm.trans hb

end Node

end Ress
