/-
The blocks between a stored block and a sync target.

A node that is behind lacks some blocks above a stored block; each of them is valid on the one below it (`Gap`).
`Climbed` says that the node has inserted the first `j` of them.

- `answersBelow_insertBlock`: block hashes that are answered below a block are answered below its child.
- `Climbed.insertBlock`: the next block is found valid.
- `Climbed.connectBlocks`: so are all the others, when the loop over the buffered descendants takes them, and the sync
  target at their end becomes the canonical head.
-/
import Ress.Engine.Agreement

namespace Ress

namespace ChainState

variable {W : World} {s : ChainState}

/-- block hashes are answered for the last 256 heights up to this block -/
def AnswersBelow (s : ChainState) (b : Block) : Prop :=
  ∀ number, b.number - 255 ≤ number → number ≤ b.number → ∃ hash, s.blockHash b.numHash number = some hash

/-- a traversal that does not stop at a new block does not meet it -/
theorem ancestorWalk_set {blocks : FMap B256 Block} {c : Block} (hnew : blocks.get c.hash = none) (number fuel : ℕ)
    {ancestor : BlockNumHash}
    (hstop : ∀ stop, ancestorWalk blocks number fuel ancestor = .inr stop → stop.hash ≠ c.hash) :
    ancestorWalk (blocks.set c.hash c) number fuel ancestor = ancestorWalk blocks number fuel ancestor := by
  induction fuel generalizing ancestor with
  | zero => rfl
  | succ fuel ih =>
    simp only [ancestorWalk] at hstop ⊢
    cases hb : blocks.get ancestor.hash with
    | none =>
      simp only [hb] at hstop
      rw [FMap.get_set_ne _ _ (hstop ancestor rfl), hb]
    | some b =>
      simp only [hb] at hstop
      have hne : ancestor.hash ≠ c.hash := by
        intro heq
        rw [heq, hnew] at hb
        cases hb
      rw [FMap.get_set_ne _ _ hne, hb]
      simp only
      split_ifs with hn
      · rfl
      · exact ih (by simpa [hn] using hstop)

/-- the same traversal over the same canonical map gives the same answer -/
theorem blockHash_of_walk {s' : ChainState} {parent : BlockNumHash} {number : ℕ}
    (hwalk : ancestorWalk s'.blocksByHash number (s'.blocksByHash.keys.card + 1) parent =
      ancestorWalk s.blocksByHash number (s.blocksByHash.keys.card + 1) parent)
    (hcanon : s'.canonicalHashesByNumber = s.canonicalHashesByNumber) :
    s'.blockHash parent number = s.blockHash parent number := by
  unfold blockHash
  rw [hwalk, hcanon]

end ChainState

namespace Chain

open ChainState (AnswersBelow)

variable {W : World} {c : Chain} {b child : Block}

/-- the answer below a stored block, one step down -/
theorem Sound.blockHash_step (h : Sound W c) {p : BlockNumHash} (hb : c.state.blocksByHash.get p.hash = some b)
    (number : ℕ) : c.state.blockHash p number =
      if b.number = number then some b.hash else c.state.blockHash b.parentNumHash number := by
  have hwalk : ChainState.ancestorWalk c.state.blocksByHash number (c.state.blocksByHash.keys.card + 1) p =
      if b.number = number then .inl b.hash
      else ChainState.ancestorWalk c.state.blocksByHash number c.state.blocksByHash.keys.card b.parentNumHash := by
    simp only [ChainState.ancestorWalk, hb]
  simp only [ChainState.blockHash]
  have hcomplete := h.walk_complete number p
  rw [hwalk] at hcomplete ⊢
  split_ifs at hcomplete ⊢ with hn
  · rfl
  · rw [ChainState.ancestorWalk_more rfl (fun stop hr => hcomplete stop hr) 1]

/-- the answers below a new child of a stored block -/
theorem Sound.answersBelow_insertBlock (h : Sound W c) (hb : c.state.blocksByHash.get b.hash = some b)
    (hnew : c.state.blocksByHash.get child.hash = none) (hknown : W.Knows child.toSealedHeader)
    (hp : child.parentHash = b.hash) (hnumber : child.number = b.number + 1) (hbelow : AnswersBelow c.state b)
    (w : Option (List Bytes)) : AnswersBelow (c.state.insertBlock child w) child := by
  intro number hlow hhigh
  have hrange : ∀ p : ℕ, p + 1 - 255 ≤ number → number ≤ p + 1 → p + 1 ≠ number → p - 255 ≤ number ∧ number ≤ p := by
    omega
  have hsound : Sound W { c with state := c.state.insertBlock child w } :=
    h.insertBlock ⟨hknown, b, by rw [hp]; exact hb, hnumber⟩
  have hself : (c.state.insertBlock child w).blocksByHash.get child.numHash.hash = some child := FMap.get_set_self _ _ _
  have hparent : child.parentNumHash = b.numHash := by
    simp only [SealedHeader.parentNumHash, SealedHeader.numHash, hnumber, hp, Nat.add_sub_cancel]
  rw [hsound.blockHash_step hself, hparent]
  split_ifs with hn
  · exact ⟨_, rfl⟩
  · rw [hnumber] at hlow hhigh hn
    obtain ⟨hash, hhash⟩ := hbelow number (hrange _ hlow hhigh hn).1 (hrange _ hlow hhigh hn).2
    refine ⟨hash, ?_⟩
    rw [← hhash]
    -- the traversal from the parent does not meet the child, which is higher
    have hstop : ∀ fuel stop, ChainState.ancestorWalk c.state.blocksByHash number fuel b.numHash = .inr stop →
        stop.hash ≠ child.hash := by
      intro fuel stop hwalk heq
      have hanc := ancestorWalk_anc h.state h.linked hwalk child.number (heq ▸ hknown.hasNumber)
      have hle := Ancestry.num_le World.link_num hanc
      have hbnum := (h.state.known _ _ hb).2.hasNumber.num_eq
      have hcnum := hknown.hasNumber.num_eq
      rw [heq] at hle
      simp only [SealedHeader.numHash] at hle
      omega
    have hcard : c.state.blocksByHash.keys.card ≤ (c.state.blocksByHash.set child.hash child).keys.card := by
      rw [FMap.keys_set]
      exact Finset.card_le_card (Finset.subset_insert _ _)
    obtain ⟨more, hmore⟩ := Nat.exists_eq_add_of_le hcard
    have hwalk : ChainState.ancestorWalk (c.state.blocksByHash.set child.hash child) number
        ((c.state.blocksByHash.set child.hash child).keys.card + 1) b.numHash =
          ChainState.ancestorWalk c.state.blocksByHash number (c.state.blocksByHash.keys.card + 1) b.numHash := by
      rw [ChainState.ancestorWalk_set hnew number _ fun stop => hstop _ stop, hmore, Nat.add_right_comm]
      exact ChainState.ancestorWalk_more rfl (fun stop hr => h.walk_complete number _ stop hr) more
    exact ChainState.blockHash_of_walk hwalk rfl

end Chain

/-- a valid block is stored, and nothing else changes but events and history -/
theorem EngineTree.Inserts.stores {E : Env} {t t' : EngineTree E} {b : Block} {w : ExecutionWitness}
    (hi : EngineTree.Inserts t b (some w) (.ok (.inserted .valid)) t') :
    t'.provider.chainState = t.provider.chainState.insertBlock b (some w.stateWitness) ∧
      t'.canonicalHead = t.canonicalHead ∧ t'.forkchoiceStateTracker = t.forkchoiceStateTracker ∧
      t'.blockBuffer = t.blockBuffer := by
  cases hi with
  | valid w' hw =>
    rw [Option.some.inj hw]
    exact ⟨rfl, rfl, rfl, rfl⟩

/-- a block without a parent goes to the buffer with its witness; nothing of its ancestors is buffered -/
theorem EngineTree.insertBlock_disconnected {E : Env} {t : EngineTree E} {b : Block} (sched : StateRoot.Schedule)
    (hnew : ¬ t.Stored b.hash) (hv : EngineTree.validateBlock E b = .ok ()) (hp : ¬ t.Stored b.parentHash)
    (hlow : t.blockBuffer.blocks.get b.parentHash = none) (w : ExecutionWitness) :
    ∃ t', t.insertBlock sched b (some w) = (.ok (.inserted (.disconnected t.canonicalHead b.parentNumHash)), t') ∧
      t'.blockBuffer = (t.blockBuffer.insertWitness b.hash w ∅).insertBlock b ∧ t'.provider = t.provider ∧
      t'.canonicalHead = t.canonicalHead ∧ t'.forkchoiceStateTracker = t.forkchoiceStateTracker ∧
      t'.invalidHeaders = t.invalidHeaders := by
  have hs : ¬ (t.provider.sealedHeader b.hash).isSome = true := fun h => hnew (ChainState.sealedHeader_isSome.1 h)
  have hparent : t.provider.sealedHeader b.parentHash = none := ChainState.sealedHeader_none.2 hp
  have hlowest : t.blockBuffer.lowestAncestor b.parentHash = none := by
    simp only [BlockBuffer.lowestAncestor, hlow, Option.map_none]
  simp only [EngineTree.insertBlock, EngineTree.tryInsertBlock, if_neg hs, hv, hparent, hlowest]
  exact ⟨_, rfl, rfl, rfl, rfl, rfl, rfl⟩

/-- nothing is trusted of downloads but the codes, and nothing is claimed -/
def trusting {E : Env} (code : B256 → Option Bytecode) : Judgement E where
  code := code
  honest _ _ := True
  sound _ := True
  judged _ := True

theorem trusting_upholds {E : Env} (code : B256 → Option Bytecode) (W : World) :
    EngineTree.Upholds (trusting (E := E) code) W where
  genesis := trivial
  judge _ _ _ _ _ _ _ := trivial
  valid _ _ _ := trivial

/-! ## The gap -/

/-- blocks above `block 0`, each valid on the one below it with its witness -/
structure Gap (E : Env) (W : World) (code : B256 → Option Bytecode) where
  length : ℕ
  block : ℕ → Block
  witness : ℕ → ExecutionWitness
  known : ∀ i ≤ length, W.Knows (block i).toSealedHeader
  valid : ∀ i < length, ∀ sched, (W.knowledge code (block i).hash).judge E sched (block (i + 1)) (block i).toSealedHeader
    (witness (i + 1)) = .ok ()
  recovers : ∀ i < length, E.tryRecover (block (i + 1)) = true

namespace Knowledge

variable {E : Env} {K : Knowledge} {sched : StateRoot.Schedule} {block : Block} {parent : SealedHeader}
  {w : ExecutionWitness}

/-- a block that is found valid passes every check -/
theorem judge_ok (h : K.judge E sched block parent w = .ok ()) :
    EngineTree.validateBlock E block = .ok () ∧
      E.consensus.validateHeaderAgainstParent block.toSealedHeader parent = .ok () ∧
      EngineTree.executeBlockOn E K.database sched block parent w = .ok () := by
  cases hv : EngineTree.validateBlock E block with
  | error error => cases (judge_validateBlock hv).symm.trans h
  | ok _ =>
    cases ha : E.consensus.validateHeaderAgainstParent block.toSealedHeader parent with
    | error error => cases (judge_parent hv ha).symm.trans h
    | ok _ => exact ⟨rfl, rfl, (judge_execute hv ha).symm.trans h⟩

end Knowledge

namespace Gap

variable {E : Env} {W : World} {code : B256 → Option Bytecode} {G : Gap E W code} {t : EngineTree E}

/-- the block at the end, to which the node syncs -/
def target (G : Gap E W code) : B256 := (G.block G.length).hash

/-- the codes that the witness of a block names -/
def codes (G : Gap E W code) (i : ℕ) : Finset B256 := (G.witness i).bytecodeHashes E.codec

theorem parent {i : ℕ} (hi : i < G.length) :
    (G.block (i + 1)).parentHash = (G.block i).hash ∧ (G.block (i + 1)).number = (G.block i).number + 1 :=
  E.consensus.against_parent _ _ (Knowledge.judge_ok (G.valid i hi StateRoot.sortedSchedule)).2.1

theorem parentNumHash {i : ℕ} (hi : i < G.length) : (G.block (i + 1)).parentNumHash = (G.block i).numHash := by
  simp only [SealedHeader.parentNumHash, SealedHeader.numHash, (parent hi).1, (parent hi).2, Nat.add_sub_cancel]

theorem number {i : ℕ} (hi : i ≤ G.length) : (G.block i).number = (G.block 0).number + i := by
  induction i with
  | zero => rfl
  | succ i ih => rw [(parent hi).2, ih (Nat.le_of_succ_le hi), Nat.add_assoc]

/-- the blocks have different hashes -/
theorem hash_inj {i j : ℕ} (hi : i ≤ G.length) (hj : j ≤ G.length) (h : (G.block i).hash = (G.block j).hash) :
    i = j := by
  have hnumber := congrArg (fun x : SealedHeader => x.number) ((G.known i hi).eq (G.known j hj) h)
  simp only [number hi, number hj] at hnumber
  omega

/-- the first `j` blocks have been inserted above the stored one -/
structure Climbed (G : Gap E W code) (j : ℕ) (t : EngineTree E) : Prop where
  holds : EngineTree.HoldsTo (trusting code) W t
  stored : ∀ i ≤ j, t.provider.chainState.blocksByHash.get (G.block i).hash = some (G.block i)
  witnesses : ∀ i, 0 < i → i ≤ j →
    t.provider.chainState.witnesses.get (G.block i).hash = some (G.witness i).stateWitness
  new : ∀ i, j < i → i ≤ G.length → ¬ t.Stored (G.block i).hash
  answers : t.provider.chainState.AnswersBelow (G.block j)
  meets : t.provider.chainState.Meets (G.block j).hash t.canonicalHead.hash
  syncs : ∀ hash, t.isSyncTargetHead hash = true ↔ hash = G.target

/-- the gap is closed -/
structure Closed (G : Gap E W code) (t : EngineTree E) : Prop where
  stored : ∀ i ≤ G.length, t.provider.chainState.blocksByHash.get (G.block i).hash = some (G.block i)
  witnesses : ∀ i, 0 < i → i ≤ G.length →
    t.provider.chainState.witnesses.get (G.block i).hash = some (G.witness i).stateWitness
  head : t.canonicalHead = (G.block G.length).numHash

variable {laws : EvmLaws E} {j n : ℕ}

/-- **The next block is valid**, and once it is inserted its child is next. -/
theorem Climbed.insertBlock (laws : EvmLaws E) (hleaf : LeafLaw E) (h : G.Climbed j t) (hj : j < G.length)
    (hread : t.provider.database.readError = none) (hcodes : G.codes (j + 1) ⊆ t.codes) (sched : StateRoot.Schedule) :
    ∃ t', t.insertBlock sched (G.block (j + 1)) (some (G.witness (j + 1))) = (.ok (.inserted .valid), t') ∧
      G.Climbed (j + 1) t' ∧ t'.provider.database = t.provider.database ∧ t'.blockBuffer = t.blockBuffer := by
  have hget := h.stored j le_rfl
  have hnew := h.new (j + 1) (Nat.lt_succ_self j) hj
  obtain ⟨hp, hnumber⟩ := G.parent hj
  obtain ⟨hv, ha, hexecutes⟩ := Knowledge.judge_ok (G.valid j hj sched)
  have hexecute : t.executeBlock sched (G.block (j + 1)) (G.block j).toSealedHeader (G.witness (j + 1)) = .ok () := by
    have hknows := h.holds.knows hread hget hp ha hcodes
    rcases EngineTree.executeBlock_known_or hknows laws hleaf sched (G.block j).toSealedHeader with
      hsame | ⟨⟨number, ⟨trie, -, hmem⟩, hnone⟩, -⟩
    · exact hsame.trans hexecutes
    · -- every block hash that is asked for is answered
      obtain ⟨hlow, hhigh⟩ := laws.recent _ _ number hmem
      have hrange : ∀ p : ℕ, p + 1 - 256 ≤ number → number < p + 1 → p - 255 ≤ number ∧ number ≤ p := by omega
      rw [hnumber] at hlow hhigh
      obtain ⟨hash, hhash⟩ := h.answers number (hrange _ hlow hhigh).1 (hrange _ hlow hhigh).2
      rw [G.parentNumHash hj] at hnone
      cases hnone.symm.trans hhash
  have hparent : t.provider.sealedHeader (G.block (j + 1)).parentHash = some (G.block j).toSealedHeader :=
    ChainState.sealedHeader_some.2 ⟨G.block j, by rw [hp]; exact hget, rfl⟩
  have hresult : (t.insertBlock sched (G.block (j + 1)) (some (G.witness (j + 1)))).1 = .ok (.inserted .valid) := by
    rw [EngineTree.insertBlock_checks_eq sched hnew hparent hp.symm]
    simp only [hv, ha, hexecute]
    rfl
  have hknown := G.known (j + 1) hj
  have hready : ∀ w, some (G.witness (j + 1)) = some w → (trusting code : Judgement E).honest (G.block (j + 1)).hash w ∧
      w.bytecodeHashes E.codec ⊆ t.codes := fun w hw => ⟨trivial, by rw [← Option.some.inj hw]; exact hcodes⟩
  have hholds := h.holds.insertBlock (trusting_upholds code W) hread sched hknown hready
  have hi := EngineTree.insertBlock_inserts t sched (G.block (j + 1)) (some (G.witness (j + 1)))
  rw [hresult] at hi
  obtain ⟨hstate, hhead, htracker, hbuffer⟩ := hi.stores
  refine ⟨_, Prod.ext hresult rfl, ⟨hholds.1, ?_, ?_, ?_, ?_, ?_, ?_⟩, hholds.2, hbuffer⟩
  · intro i hi
    rw [hstate]
    rcases Nat.le_succ_iff.1 hi with hle | rfl
    · refine (FMap.get_set_ne _ _ fun heq => ?_).trans (h.stored i hle)
      have := G.hash_inj (by omega) hj heq
      omega
    · exact FMap.get_set_self _ _ _
  · intro i hpos hi
    rw [hstate]
    rcases Nat.le_succ_iff.1 hi with hle | rfl
    · refine (FMap.get_set_ne _ _ fun heq => ?_).trans (h.witnesses i hpos hle)
      have := G.hash_inj (by omega) hj heq
      omega
    · exact FMap.get_set_self _ _ _
  · intro i hlt hle hs
    unfold EngineTree.Stored at hs
    rw [hstate, ChainState.stored_insertBlock] at hs
    rcases hs with heq | hs
    · have := G.hash_inj hle hj heq
      omega
    · exact h.new i (by omega) hle hs
  · have hbelow := h.holds.coherent.chain.toSound.answersBelow_insertBlock hget (by
      cases hb : t.provider.chainState.blocksByHash.get (G.block (j + 1)).hash with
      | none => exact hb
      | some b => exact absurd ⟨b, hb⟩ hnew) hknown hp hnumber h.answers (some (G.witness (j + 1)).stateWitness)
    rw [hstate]
    exact hbelow
  · have hlift := h.meets.lift fun d p hl =>
      ChainState.StoredLink.insertBlock (w := some (G.witness (j + 1)).stateWitness) hnew hl
    obtain ⟨f, hf, hf'⟩ := hlift
    rw [hstate, hhead]
    refine ⟨f, Relation.ReflTransGen.head ⟨G.block (j + 1), FMap.get_set_self _ _ _, hp⟩ hf, hf'⟩
  · intro hash
    rw [← h.syncs hash]
    unfold EngineTree.isSyncTargetHead
    rw [htracker]

/-- **The block at the end** becomes the canonical head. -/
theorem Climbed.makeCanonical (h : G.Climbed G.length t) (hpos : 0 < G.length) :
    G.Closed (t.makeCanonical G.target) := by
  have hchain := h.holds.coherent.chain.toSound
  have hget := h.stored G.length le_rfl
  have hparent : t.provider.chainState.Stored (G.block G.length).parentHash := by
    obtain ⟨i, hi⟩ : ∃ i, G.length = i + 1 := ⟨G.length - 1, by omega⟩
    rw [hi, (G.parent (i := i) (by omega)).1]
    exact ⟨_, h.stored i (by omega)⟩
  have hfound := ChainState.onNewHead_found hchain.state.known hchain.linked hget
    (hchain.linked.link_of_stored hchain.state.known hget hparent) hchain.head h.meets
  obtain ⟨update, hupdate⟩ := Option.isSome_iff_exists.1 hfound
  obtain ⟨htip, -, -⟩ := ChainState.onNewHead_stored hupdate
  obtain ⟨b, hb, hbt⟩ := ChainState.sealedHeader_some.1 htip
  cases hget.symm.trans hb
  have hnew : t.onNewHead G.target = some update := hupdate
  refine ⟨fun i hi => ?_, fun i hpos hi => ?_, ?_⟩
  · obtain ⟨-, -, -, -, hblocks⟩ := EngineTree.makeCanonical_frame t G.target
    rw [hblocks]
    exact h.stored i hi
  · obtain ⟨-, -, hwitnesses⟩ := ChainState.onChainUpdate_frame update.new update.old t.provider.chainState
    simp only [EngineTree.makeCanonical, hnew]
    exact (congrArg (fun m : FMap B256 (List Bytes) => m.get (G.block i).hash) hwitnesses).trans
      (h.witnesses i hpos hi)
  · simp only [EngineTree.makeCanonical, hnew]
    exact (congrArg SealedHeader.numHash hbt).symm

/-- a block of the gap with its witness -/
def pair (G : Gap E W code) (i : ℕ) : Block × ExecutionWitness := (G.block i, G.witness i)

/-- **The other blocks**, from one whose parent is stored up to the end, are valid, and the last is made canonical. -/
theorem Climbed.connectBlocks (laws : EvmLaws E) (hleaf : LeafLaw E) (h : G.Climbed j t) (hn : j + (n + 1) = G.length)
    (hread : t.provider.database.readError = none) (hcodes : ∀ i, j < i → i ≤ G.length → G.codes i ⊆ t.codes)
    (sched : StateRoot.Schedule) :
    ∃ t', EngineTree.connectBlocks sched ((List.range' (j + 1) (n + 1)).map G.pair) t = (.ok (), t') ∧ G.Closed t' := by
  induction n generalizing j t with
  | zero =>
    obtain ⟨t₁, hinsert, hclimbed, -⟩ := h.insertBlock laws hleaf (by omega) hread (hcodes _ (by omega) (by omega)) sched
    have hend : j + 1 = G.length := hn
    refine ⟨_, ?_, (hend ▸ hclimbed).makeCanonical (by omega)⟩
    rw [List.range'_succ, List.range'_zero, List.map_cons, List.map_nil]
    simp only [pair, EngineTree.connectBlocks, hinsert]
    rw [if_pos ⟨(hclimbed.syncs _).2 (by rw [hend]; rfl), trivial⟩, hend]
    rfl
  | succ n ih =>
    obtain ⟨t₁, hinsert, hclimbed, hdatabase, -⟩ :=
      h.insertBlock laws hleaf (by omega) hread (hcodes _ (by omega) (by omega)) sched
    obtain ⟨t', hconnect, hclosed⟩ := ih hclimbed (by omega) (by rw [hdatabase]; exact hread) (by
      intro i hlt hle
      unfold EngineTree.codes
      rw [hdatabase]
      exact hcodes i (by omega) hle)
    refine ⟨t', ?_, hclosed⟩
    have hnot : ¬ t₁.isSyncTargetHead (G.block (j + 1)).hash = true := by
      intro hsync
      have := G.hash_inj (by omega) le_rfl ((hclimbed.syncs _).1 hsync)
      omega
    rw [List.range'_succ, List.map_cons]
    simp only [pair, EngineTree.connectBlocks, hinsert, if_neg fun hsync : _ ∧ _ => hnot hsync.1]
    exact hconnect

/-- parents come first, so the blocks of the gap come in order -/
theorem ordered_eq {l : List (Block × ExecutionWitness)} (hn : j + n = G.length)
    (hmem : ∀ x, x ∈ l ↔ ∃ i, j < i ∧ i ≤ G.length ∧ x = G.pair i) (hnodup : (l.map fun x => x.1.hash).Nodup)
    (hordered : l.Pairwise fun x y => x.1.parentHash ≠ y.1.hash) : l = (List.range' (j + 1) n).map G.pair := by
  induction n generalizing j l with
  | zero =>
    refine List.eq_nil_iff_forall_not_mem.2 fun x hx => ?_
    obtain ⟨i, hlt, hle, -⟩ := (hmem x).1 hx
    omega
  | succ n ih =>
    cases l with
    | nil => exact absurd ((hmem (G.pair (j + 1))).2 ⟨j + 1, by omega, by omega, rfl⟩) List.not_mem_nil
    | cons x l =>
      obtain ⟨hfirst, hrest⟩ := List.pairwise_cons.1 hordered
      obtain ⟨hnotin, hdistinct⟩ := List.nodup_cons.1 hnodup
      obtain ⟨i, hlt, hle, rfl⟩ := (hmem x).1 List.mem_cons_self
      -- the parent of the first block is not behind it
      have hi : i = j + 1 := by
        by_contra hne
        obtain ⟨i, rfl⟩ : ∃ k, i = k + 1 := ⟨i - 1, by omega⟩
        have hparent := (hmem (G.pair i)).2 ⟨i, by omega, by omega, rfl⟩
        rcases List.mem_cons.1 hparent with heq | hin
        · have := G.hash_inj (by omega) hle (congrArg (fun y : Block × ExecutionWitness => y.1.hash) heq)
          omega
        · exact hfirst _ hin (G.parent (by omega)).1
      subst hi
      rw [List.range'_succ, List.map_cons]
      refine congrArg _ (ih (by omega) (fun y => ⟨?_, ?_⟩) hdistinct hrest)
      · intro hy
        obtain ⟨i, hlt', hle', rfl⟩ := (hmem y).1 (List.mem_cons_of_mem _ hy)
        refine ⟨i, ?_, hle', rfl⟩
        by_contra hge
        have hi : i = j + 1 := by omega
        subst hi
        exact hnotin (List.mem_map.2 ⟨_, hy, rfl⟩)
      · rintro ⟨i, hlt', hle', rfl⟩
        refine (List.mem_cons.1 ((hmem _).2 ⟨i, by omega, hle', rfl⟩)).resolve_left fun heq => ?_
        have := G.hash_inj hle' hle (congrArg (fun y : Block × ExecutionWitness => y.1.hash) heq)
        omega

end Gap

end Ress
