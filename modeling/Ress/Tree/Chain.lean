/-
The chain state together with the canonical head, as a system of its own.

It changes in five ways: a validated block is stored, a finalized block arrives with the headers of its ancestors
(`ConsensusEngine::on_download_outcome`), a stored block is made canonical (`EngineTree::make_canonical`), and blocks
before a finalized one are removed. The engine's chain goes through these operations only.

- `Wf`: what every run keeps.
- `Sound`: every canonical entry is an ancestor of the canonical head. A run keeps it when every finalized download
  leaves no canonical entry of another branch behind (`FinalizedFits`). The download itself never removes an entry.
- `Coherent`: in addition the head is stored and is the entry at its height, so no entry lies above it.
- `OneChain`: any two canonical entries lie on one chain. That is all a `BLOCKHASH` answer needs to be the ancestor of
  the block it is asked for (`OneChain.blockHash_sound`), and a run keeps it under a weaker condition (`OpJoins`).
- `runs_blockHash_sound`, `blockHash_of_other_branch`: so it is in every run with that condition, and not without it.
-/
import Ress.Lib.Run
import Ress.Tree.CanonicalChain

namespace Ress

structure Chain where
  state : ChainState
  head : BlockNumHash

namespace Chain

/-! ## Operations -/

/-- the node starts with genesis stored and canonical -/
def launch (genesis : Block) : Chain :=
  ⟨(ChainState.empty.insertBlock genesis none).insertCanonicalHash 0 genesis.hash, genesis.numHash⟩

def onCanonicalChainUpdate (c : Chain) (update : NewCanonicalChain) : Chain :=
  ⟨c.state.onChainUpdate update.new update.old, update.tip.numHash⟩

def makeCanonical (c : Chain) (target : B256) : Chain :=
  match c.state.onNewHead c.head target with
  | some update => c.onCanonicalChainUpdate update
  | none => c

/-- the finalized branch of `on_download_outcome`: the head is set, the block stored without execution, and the hashes
of the block and its ancestors written -/
def onFinalizedBlock (c : Chain) (block : Block) (ancestors : List SealedHeader) : Chain :=
  ⟨ancestors.foldl (fun s header => s.insertCanonicalHash header.number header.hash)
    ((c.state.insertCanonicalHash block.number block.hash).insertBlock block none), block.numHash⟩

inductive Op where
  | insertBlock (block : Block) (witness : Option (List Bytes))
  | finalizedBlock (block : Block) (ancestors : List SealedHeader)
  | makeCanonical (target : B256)
  | removeBlocksOnFinalized (hash : B256)

def step (c : Chain) : Op → Chain
  | .insertBlock block witness => { c with state := c.state.insertBlock block witness }
  | .finalizedBlock block ancestors => c.onFinalizedBlock block ancestors
  | .makeCanonical target => c.makeCanonical target
  | .removeBlocksOnFinalized hash => { c with state := c.state.removeBlocksOnFinalized hash }

/-! ## What the operations are given -/

/-- the headers descend from a hash: each is the parent of the one before, one lower -/
def LinkedFrom (W : World) : B256 → List SealedHeader → Prop
  | _, [] => True
  | d, x :: xs => W.Knows x ∧ W.Link d x.hash ∧ LinkedFrom W x.hash xs

/-- a finalized block with the headers of its 256 or more next ancestors -/
structure Delivered (W : World) (block : Block) (ancestors : List SealedHeader) : Prop where
  known : W.Knows block.toSealedHeader
  linked : LinkedFrom W block.hash ancestors
  length : 256 ≤ ancestors.length

/-- a block whose parent is stored, one lower -/
structure Child (W : World) (s : ChainState) (block : Block) : Prop where
  known : W.Knows block.toSealedHeader
  parent : ∃ p, s.blocksByHash.get block.parentHash = some p ∧ block.number = p.number + 1

def OpOk (W : World) (c : Chain) : Op → Prop
  | .insertBlock block _ => Child W c.state block
  | .finalizedBlock block ancestors => Delivered W block ancestors
  | _ => True

/-- every canonical entry that the download does not overwrite is an ancestor of the downloaded block -/
def FinalizedFits (W : World) (c : Chain) (block : Block) (ancestors : List SealedHeader) : Prop :=
  ∀ n h, c.state.canonicalHashesByNumber.get n = some h → n ≠ block.number → (∀ x ∈ ancestors, x.number ≠ n) →
    W.Anc block.hash h

def OpFits (W : World) (c : Chain) : Op → Prop
  | .finalizedBlock block ancestors => FinalizedFits W c block ancestors
  | _ => True

/-- the two hashes lie on one chain -/
def Comparable (W : World) (h k : B256) : Prop := W.Anc h k ∨ W.Anc k h

/-- what becomes canonical lies on one chain with every canonical entry that it leaves: with those that a download does
not overwrite, and with those that are not ancestors of the head when a block is made canonical -/
def OpJoins (W : World) (c : Chain) : Op → Prop
  | .finalizedBlock block ancestors => ∀ n h, c.state.canonicalHashesByNumber.get n = some h → n ≠ block.number →
      (∀ x ∈ ancestors, x.number ≠ n) → Comparable W block.hash h
  | .makeCanonical target => ∀ n h, c.state.canonicalHashesByNumber.get n = some h → ¬ W.Anc c.head.hash h →
      Comparable W target h
  | _ => True

variable {W : World} {c : Chain}

theorem LinkedFrom.mem {d : B256} {l : List SealedHeader} (h : LinkedFrom W d l) :
    ∀ x ∈ l, W.Knows x ∧ W.Anc d x.hash ∧ W.num x.hash < W.num d := by
  induction l generalizing d with
  | nil => intro x hx; simp at hx
  | cons y l ih =>
    obtain ⟨hk, hlink, hrest⟩ := h
    have hnum := World.link_num _ _ hlink
    intro x hx
    rcases List.mem_cons.1 hx with rfl | hx
    · exact ⟨hk, Relation.ReflTransGen.single hlink, by omega⟩
    · obtain ⟨hkx, hax, hlt⟩ := ih hrest x hx
      exact ⟨hkx, hax.head hlink, by omega⟩

theorem Child.link {s : ChainState} {b : Block} (hwf : s.Wf W) (hb : Child W s b) : W.Link b.hash b.parentHash := by
  obtain ⟨p, hp, hn⟩ := hb.parent
  obtain ⟨hph, hpk⟩ := hwf.known _ _ hp
  refine ⟨b.toSealedHeader, p.toSealedHeader, hb.known, ?_, rfl, hn⟩
  unfold World.Knows at hpk
  rwa [hph] at hpk

theorem Delivered.link {b : Block} {l : List SealedHeader} (h : Delivered W b l) : W.Link b.hash b.parentHash := by
  cases l with
  | nil => have := h.length; simp at this
  | cons x l =>
    have hlink := h.linked.2.1
    have := World.Link.parent h.known hlink
    rwa [this]

theorem onFinalizedBlock_blocks (c : Chain) (b : Block) (l : List SealedHeader) :
    (c.onFinalizedBlock b l).state.blocksByHash = c.state.blocksByHash.set b.hash b :=
  (ChainState.insertCanonicalHashes_frame l _).1

theorem onCanonicalChainUpdate_blocks (c : Chain) (update : NewCanonicalChain) :
    (c.onCanonicalChainUpdate update).state.blocksByHash = c.state.blocksByHash :=
  (ChainState.onChainUpdate_frame update.new update.old c.state).1

/-- a finalized download puts the block into the canonical map -/
theorem Delivered.headCanon {b : Block} {l : List SealedHeader} (h : Delivered W b l) (c : Chain) :
    (c.onFinalizedBlock b l).state.canonicalHashesByNumber.get b.number = some b.hash := by
  have hne : ∀ x ∈ l, x.number ≠ b.number := by
    intro x hx heq
    obtain ⟨hk, -, hlt⟩ := h.linked.mem x hx
    rw [hk.hasNumber.num_eq, h.known.hasNumber.num_eq] at hlt
    omega
  have hkeep := ChainState.insertCanonicalHashes_get_ne
    (s := (c.state.insertCanonicalHash b.number b.hash).insertBlock b none) hne
  exact hkeep.trans (FMap.get_set_self _ _ _)

/-! ## Well-formed in every run -/

structure Wf (W : World) (c : Chain) : Prop where
  state : c.state.Wf W
  head : W.HasNumber c.head.hash c.head.number

theorem wf_launch (W : World) : Wf W (launch W.genesis) := by
  have hgen : W.HasNumber W.genesis.hash 0 := ⟨_, W.genesis_known, W.genesis_number⟩
  have hempty : ChainState.empty.Wf W := by
    refine ⟨?_, ?_, ?_⟩ <;> intro n <;> simp [ChainState.empty]
  exact ⟨(hempty.insertBlock W.genesis_known).insertCanonicalHash hgen, ⟨_, W.genesis_known, rfl⟩⟩

theorem Wf.onCanonicalChainUpdate {target : B256} {update : NewCanonicalChain} (h : Wf W c)
    (hu : c.state.onNewHead c.head target = some update) : Wf W (c.onCanonicalChainUpdate update) := by
  obtain ⟨htip, hnew, -⟩ := ChainState.onNewHead_stored hu
  obtain ⟨-, hk⟩ := h.state.header htip
  exact ⟨h.state.onChainUpdate hnew, hk.hasNumber⟩

theorem Wf.makeCanonical (h : Wf W c) (target : B256) : Wf W (c.makeCanonical target) := by
  unfold Chain.makeCanonical
  split
  · rename_i update hu
    exact h.onCanonicalChainUpdate hu
  · exact h

theorem Wf.onFinalizedBlock {b : Block} {l : List SealedHeader} (h : Wf W c) (hb : W.Knows b.toSealedHeader)
    (hl : ∀ x ∈ l, W.Knows x) : Wf W (c.onFinalizedBlock b l) := by
  refine ⟨?_, hb.hasNumber⟩
  apply ChainState.Wf.insertCanonicalHashes
  · exact (h.state.insertCanonicalHash hb.hasNumber).insertBlock hb
  · exact fun x hx => (hl x hx).hasNumber

/-! ## The entries after each operation -/

theorem Wf.tip_hash {target : B256} {update : NewCanonicalChain} (h : Wf W c)
    (hu : c.state.onNewHead c.head target = some update) : update.tip.hash = target := by
  obtain ⟨htip, -, -⟩ := ChainState.onNewHead_stored hu
  exact (h.state.header htip).1

theorem Wf.tip_stored {target : B256} {update : NewCanonicalChain} (h : Wf W c)
    (hu : c.state.onNewHead c.head target = some update) :
    (c.onCanonicalChainUpdate update).state.Stored update.tip.hash := by
  obtain ⟨htip, -, -⟩ := ChainState.onNewHead_stored hu
  obtain ⟨b, hb, -⟩ := ChainState.sealedHeader_some.1 htip
  refine ⟨b, ?_⟩
  rw [onCanonicalChainUpdate_blocks, h.tip_hash hu, hb]

/-- an entry after a chain update is an ancestor of the target, or an old entry that is no ancestor of the old head -/
theorem Wf.updateEntry {target : B256} {update : NewCanonicalChain} (h : Wf W c) (hl : c.state.Linked W)
    (hu : c.state.onNewHead c.head target = some update) {n : ℕ} {k : B256}
    (hg : (c.onCanonicalChainUpdate update).state.canonicalHashesByNumber.get n = some k) :
    W.Anc target k ∨ c.state.canonicalHashesByNumber.get n = some k ∧ ¬ W.Anc c.head.hash k := by
  obtain ⟨-, -, holdStored⟩ := ChainState.onNewHead_stored hu
  obtain ⟨fork, hold, hnew⟩ := ChainState.onNewHead_segments h.state.known hl h.head hu
  rcases ChainState.onChainUpdate_get hg with ⟨x, hx, -, rfl⟩ | ⟨-, hs, hout⟩
  · exact Or.inl (hnew.mem_anc _ (List.mem_map_of_mem hx))
  · by_cases hhead : W.Anc c.head.hash k
    · -- an entry that stays is not above the fork on the old chain, so it is an ancestor of the fork
      have hk : k ∉ update.old.map (·.hash) := by
        intro hmem
        obtain ⟨x, hx, rfl⟩ := List.mem_map.1 hmem
        exact hout x hx ⟨(h.state.allStored holdStored x hx).unique (h.state.canon n _ hs), rfl⟩
      have hfork : W.Anc fork k := (Ancestry.segment_split World.link_fun hold hhead).resolve_left hk
      exact Or.inl (hnew.anc.trans hfork)
    · exact Or.inr ⟨hs, hhead⟩

/-- an entry after a finalized download is an ancestor of the block, or an old entry that is not overwritten -/
theorem Delivered.entry {b : Block} {l : List SealedHeader} (hd : Delivered W b l) {n : ℕ} {k : B256}
    (hg : (c.onFinalizedBlock b l).state.canonicalHashesByNumber.get n = some k) :
    W.Anc b.hash k ∨ c.state.canonicalHashesByNumber.get n = some k ∧ n ≠ b.number ∧ ∀ x ∈ l, x.number ≠ n := by
  rcases ChainState.insertCanonicalHashes_get hg with ⟨x, hx, -, rfl⟩ | ⟨hne, hs⟩
  · exact Or.inl (hd.linked.mem x hx).2.1
  · simp only [ChainState.insertBlock, ChainState.insertCanonicalHash, FMap.get_set] at hs
    split_ifs at hs with hn
    · cases hs
      exact Or.inl Relation.ReflTransGen.refl
    · exact Or.inr ⟨hs, hn, hne⟩

/-- a canonical block is the entry at its own height -/
theorem Wf.canonical_number (h : Wf W c) {hash : B256} {f : Block} (hcanon : c.state.IsHashCanonical hash)
    (hf : c.state.blocksByHash.get hash = some f) : c.state.canonicalHashesByNumber.get f.number = some hash := by
  obtain ⟨n, hn⟩ := ChainState.isHashCanonical_iff.1 hcanon
  obtain ⟨hfh, hfk⟩ := h.state.known _ _ hf
  have hnum : W.HasNumber hash f.number := hfh ▸ hfk.hasNumber
  rwa [hnum.unique (h.state.canon n _ hn)]

/-- finalizing a block that is not above the head keeps the head stored -/
theorem Wf.finalized_headStored (h : Wf W c) {hash : B256}
    (hle : ∀ f, c.state.blocksByHash.get hash = some f → f.number ≤ c.head.number)
    (hs : c.state.Stored c.head.hash) : (c.state.removeBlocksOnFinalized hash).Stored c.head.hash := by
  obtain ⟨b, hb⟩ := hs
  cases hf : c.state.blocksByHash.get hash with
  | none =>
    rcases ChainState.removeBlocksOnFinalized_cases c.state hash with ⟨-, heq⟩ | ⟨f, hf', -⟩
    · exact ⟨b, heq.symm ▸ hb⟩
    · cases hf.symm.trans hf'
  | some f => exact ⟨b, ChainState.removeBlocksOnFinalized_keeps h.state.indexed hf hb h.head (hle f hf)⟩

/-! ## Every canonical entry is an ancestor of the head -/

structure Sound (W : World) (c : Chain) : Prop extends Wf W c where
  linked : c.state.Linked W
  canonAnc : ∀ n h, c.state.canonicalHashesByNumber.get n = some h → W.Anc c.head.hash h

theorem sound_launch (W : World) : Sound W (launch W.genesis) := by
  refine ⟨wf_launch W, ?_, ?_⟩
  · intro h b hb
    simp only [launch, ChainState.insertCanonicalHash, ChainState.insertBlock, ChainState.empty, FMap.get_set] at hb
    split_ifs at hb with hh
    · exact Or.inl hh
    · simp at hb
  · intro n h hg
    simp only [launch, ChainState.insertCanonicalHash, ChainState.insertBlock, ChainState.empty, FMap.get_set] at hg
    split_ifs at hg with hn
    · cases hg; exact Relation.ReflTransGen.refl
    · simp at hg

theorem Sound.insertBlock {b : Block} {w : Option (List Bytes)} (h : Sound W c) (hb : Child W c.state b) :
    Sound W { c with state := c.state.insertBlock b w } := by
  exact ⟨⟨h.state.insertBlock hb.known, h.head⟩, fun k x hx => h.linked.set (hb.link h.state) hx, h.canonAnc⟩

theorem Sound.onCanonicalChainUpdate {target : B256} {update : NewCanonicalChain} (h : Sound W c)
    (hu : c.state.onNewHead c.head target = some update) : Sound W (c.onCanonicalChainUpdate update) := by
  refine ⟨h.toWf.onCanonicalChainUpdate hu, fun k b hb => ?_, fun n k hg => ?_⟩
  · rw [onCanonicalChainUpdate_blocks] at hb
    exact h.linked k b hb
  · show W.Anc update.tip.hash k
    rw [h.tip_hash hu]
    rcases h.updateEntry h.linked hu hg with hanc | ⟨hs, hnot⟩
    · exact hanc
    · exact absurd (h.canonAnc n k hs) hnot

theorem Sound.makeCanonical (h : Sound W c) (target : B256) : Sound W (c.makeCanonical target) := by
  unfold Chain.makeCanonical
  split
  · rename_i update hu
    exact h.onCanonicalChainUpdate hu
  · exact h

theorem Sound.onFinalizedBlock {b : Block} {l : List SealedHeader} (h : Sound W c) (hd : Delivered W b l)
    (hfits : FinalizedFits W c b l) : Sound W (c.onFinalizedBlock b l) := by
  refine ⟨h.toWf.onFinalizedBlock hd.known fun x hx => (hd.linked.mem x hx).1, fun k x hx => ?_, fun n k hg => ?_⟩
  · rw [onFinalizedBlock_blocks] at hx
    exact h.linked.set hd.link hx
  · rcases hd.entry hg with hanc | ⟨hs, hn, hne⟩
    · exact hanc
    · exact hfits n k hs hn hne

theorem Sound.removeBlocksOnFinalized (h : Sound W c) (hash : B256) :
    Sound W { c with state := c.state.removeBlocksOnFinalized hash } :=
  ⟨⟨h.state.removeBlocksOnFinalized hash, h.head⟩,
    fun k b hb => h.linked k b (ChainState.removeBlocksOnFinalized_block hb),
    fun n k hg => h.canonAnc n k (ChainState.removeBlocksOnFinalized_entry hg)⟩

theorem Sound.step (h : Sound W c) {op : Op} (hok : OpOk W c op) (hfits : OpFits W c op) : Sound W (c.step op) := by
  cases op with
  | insertBlock block witness => exact h.insertBlock hok
  | finalizedBlock block ancestors => exact h.onFinalizedBlock hok hfits
  | makeCanonical target => exact h.makeCanonical target
  | removeBlocksOnFinalized hash => exact h.removeBlocksOnFinalized hash

/-! ## Coherent bookkeeping -/

/-- the head is stored and is the canonical entry at its height -/
structure Coherent (W : World) (c : Chain) : Prop extends Sound W c where
  headStored : c.state.Stored c.head.hash
  headCanon : c.state.canonicalHashesByNumber.get c.head.number = some c.head.hash

/-- no canonical entry lies above the head -/
theorem Sound.entry_le (h : Sound W c) {n : ℕ} {k : B256} (hg : c.state.canonicalHashesByNumber.get n = some k) :
    n ≤ c.head.number := by
  rw [← (h.state.canon n k hg).num_eq, ← h.head.num_eq]
  exact Ancestry.num_le World.link_num (h.canonAnc n k hg)

/-- no canonical block lies above the head -/
theorem Sound.number_le (h : Sound W c) {hash : B256} {f : Block} (hcanon : c.state.IsHashCanonical hash)
    (hf : c.state.blocksByHash.get hash = some f) : f.number ≤ c.head.number :=
  h.entry_le (h.canonical_number hcanon hf)

theorem coherent_launch (W : World) : Coherent W (launch W.genesis) := by
  refine ⟨sound_launch W, ⟨W.genesis, by simp [launch, ChainState.insertCanonicalHash, ChainState.insertBlock,
    SealedHeader.numHash]⟩, ?_⟩
  simp [launch, ChainState.insertCanonicalHash, SealedHeader.numHash, W.genesis_number]

theorem Coherent.insertBlock {b : Block} {w : Option (List Bytes)} (h : Coherent W c) (hb : Child W c.state b) :
    Coherent W { c with state := c.state.insertBlock b w } := by
  refine ⟨h.toSound.insertBlock hb, ?_, h.headCanon⟩
  exact ChainState.stored_insertBlock.2 (Or.inr h.headStored)

theorem Coherent.onCanonicalChainUpdate {target : B256} {update : NewCanonicalChain} (h : Coherent W c)
    (hu : c.state.onNewHead c.head target = some update) : Coherent W (c.onCanonicalChainUpdate update) :=
  ⟨h.toSound.onCanonicalChainUpdate hu, h.tip_stored hu, ChainState.onChainUpdate_tip update c.state⟩

theorem Coherent.onFinalizedBlock {b : Block} {l : List SealedHeader} (h : Coherent W c) (hd : Delivered W b l)
    (hfits : FinalizedFits W c b l) : Coherent W (c.onFinalizedBlock b l) := by
  refine ⟨h.toSound.onFinalizedBlock hd hfits, ⟨b, ?_⟩, ?_⟩
  · rw [onFinalizedBlock_blocks]
    exact FMap.get_set_self _ _ _
  · exact hd.headCanon c

/-- removing the blocks before a canonical one keeps the head -/
theorem Coherent.removeBlocksOnFinalized (h : Coherent W c) {hash : B256}
    (hcanon : c.state.IsHashCanonical hash) : Coherent W { c with state := c.state.removeBlocksOnFinalized hash } := by
  have hle : ∀ f, c.state.blocksByHash.get hash = some f → f.number ≤ c.head.number := fun _ hf =>
    h.number_le hcanon hf
  refine ⟨h.toSound.removeBlocksOnFinalized hash, h.finalized_headStored hle h.headStored, ?_⟩
  exact (ChainState.removeBlocksOnFinalized_keepsEntry fun f hf => Nat.le_add_right_of_le (hle f hf)).trans h.headCanon

/-! ## Block hashes -/

/-- **What the traversal of `block_hash` meets.** A hash it answers is the ancestor at the height asked for, and the
hash it stops at is an ancestor, if it is a block's hash at all. -/
theorem ancestorWalk_anc {s : ChainState} (hwf : s.Wf W) (hl : s.Linked W) {number fuel : ℕ} {ancestor : BlockNumHash}
    {r : B256 ⊕ BlockNumHash} (hr : ChainState.ancestorWalk s.blocksByHash number fuel ancestor = r) :
    match r with
    | .inl h => W.Anc ancestor.hash h ∧ W.HasNumber h number
    | .inr stop => ∀ n, W.HasNumber stop.hash n → W.Anc ancestor.hash stop.hash := by
  induction fuel generalizing ancestor with
  | zero =>
    subst hr
    intro n _
    exact Relation.ReflTransGen.refl
  | succ fuel ih =>
    unfold ChainState.ancestorWalk at hr
    cases hg : s.blocksByHash.get ancestor.hash with
    | none =>
      simp only [hg] at hr
      subst hr
      intro n _
      exact Relation.ReflTransGen.refl
    | some b =>
      obtain ⟨hbh, hbk⟩ := hwf.known _ _ hg
      simp only [hg] at hr
      split_ifs at hr with hn
      · subst hr
        rw [← hbh]
        exact ⟨Relation.ReflTransGen.refl, hn ▸ hbk.hasNumber⟩
      · have hrest := ih hr
        rcases hl _ _ hg with hgen | hlink
        · -- above genesis there is no block
          have hroot : W.header b.parentHash = none := by
            have hb : b.toSealedHeader = W.genesis.toSealedHeader := hbk.eq W.genesis_known (hbh.trans hgen)
            rw [hb]; exact W.genesis_root
          have hnone : ∀ k n, W.Anc b.parentHash k → ¬ W.HasNumber k n := by
            intro k n hanc hk
            rcases Relation.ReflTransGen.cases_head hanc with heq | ⟨m, ⟨x, _, hx, _⟩, _⟩
            · obtain ⟨x, hx, -⟩ := hk
              rw [← heq, hroot] at hx
              exact absurd hx (by simp)
            · rw [hroot] at hx
              exact absurd hx (by simp)
          cases r with
          | inl k => exact absurd hrest.2 (hnone k number hrest.1)
          | inr stop =>
            intro n hk
            exact absurd hk (hnone stop.hash n (hrest n hk))
        · cases r with
          | inl k => exact ⟨Relation.ReflTransGen.head hlink hrest.1, hrest.2⟩
          | inr stop =>
            intro n hk
            exact Relation.ReflTransGen.head hlink (hrest n hk)

/-- the traversal stops only at a block that is not stored -/
theorem Sound.walk_complete (h : Sound W c) (number : ℕ) (parent stop : BlockNumHash)
    (hstop : ChainState.ancestorWalk c.state.blocksByHash number (c.state.blocksByHash.keys.card + 1) parent
      = .inr stop) : c.state.blocksByHash.get stop.hash = none := by
  refine ChainState.ancestorWalk_enough _ ?_ number _ parent ?_ (Nat.succ_pos _) stop hstop
  · intro k b p hb hp
    exact h.linked.parent_number h.state.known hb hp
  · intro b _
    exact Nat.lt_succ_of_le (Finset.card_le_card (Finset.filter_subset _ _))

/-- every answer within the last 256 heights is the ancestor-or-self of the stored block it is asked for -/
def BlockHashSound (W : World) (c : Chain) : Prop :=
  ∀ parent, c.state.blocksByHash.get parent.hash = some parent → ∀ n h, parent.number - 255 ≤ n → n ≤ parent.number →
    c.state.blockHash parent.numHash n = some h → W.Anc parent.hash h ∧ W.HasNumber h n

/-! ## Canonical entries on one chain -/

theorem Comparable.anc {h k : B256} {n m : ℕ} (hc : Comparable W h k) (hh : W.HasNumber h n) (hk : W.HasNumber k m)
    (hle : n ≤ m) : W.Anc k h := by
  rcases hc with hanc | hanc
  · -- an ancestor is not higher, so it is the block itself
    have hnum := Ancestry.num_le World.link_num hanc
    rw [hh.num_eq, hk.num_eq] at hnum
    have heq : k = h := Ancestry.eq_of_num World.link_num hanc (by rw [hh.num_eq, hk.num_eq]; omega)
    rw [heq]
    exact Relation.ReflTransGen.refl
  · exact hanc

/-- two ancestors of one block -/
theorem Comparable.below {d h k : B256} (hh : W.Anc d h) (hk : W.Anc d k) : Comparable W h k :=
  Relation.ReflTransGen.total_of_right_unique (fun _ _ _ => World.link_fun _ _ _) hh hk

/-- any two canonical entries lie on one chain -/
structure OneChain (W : World) (c : Chain) : Prop extends Wf W c where
  linked : c.state.Linked W
  comparable : ∀ n h m k, c.state.canonicalHashesByNumber.get n = some h →
    c.state.canonicalHashesByNumber.get m = some k → Comparable W h k

theorem Sound.oneChain (h : Sound W c) : OneChain W c :=
  ⟨h.toWf, h.linked, fun n _ m _ hg hg' => Comparable.below (h.canonAnc n _ hg) (h.canonAnc m _ hg')⟩

/-- a block becomes canonical, and the entries that are not its ancestors are left over and descend from it -/
theorem OneChain.joins {c' : Chain} (h : OneChain W c) (top : B256) (hwf : Wf W c') (hlinked : c'.state.Linked W)
    (hentries : ∀ n k, c'.state.canonicalHashesByNumber.get n = some k →
      W.Anc top k ∨ c.state.canonicalHashesByNumber.get n = some k ∧ W.Anc k top) : OneChain W c' := by
  refine ⟨hwf, hlinked, fun n k m k' hg hg' => ?_⟩
  rcases hentries n k hg with hk | ⟨hold, hk⟩ <;> rcases hentries m k' hg' with hk' | ⟨hold', hk'⟩
  · exact Comparable.below hk hk'
  · exact Or.inr (hk'.trans hk)
  · exact Or.inl (hk.trans hk')
  · exact h.comparable n k m k' hold hold'

theorem OneChain.makeCanonical {target : B256} (h : OneChain W c) (hjoins : OpJoins W c (.makeCanonical target)) :
    OneChain W (c.makeCanonical target) := by
  unfold Chain.makeCanonical
  cases hu : c.state.onNewHead c.head target with
  | none => exact h
  | some update =>
    change OneChain W (c.onCanonicalChainUpdate update)
    refine h.joins target (h.toWf.onCanonicalChainUpdate hu) (fun k b hb => ?_) fun n k hg => ?_
    · rw [onCanonicalChainUpdate_blocks] at hb
      exact h.linked k b hb
    · rcases h.updateEntry h.linked hu hg with hanc | ⟨hs, hnot⟩
      · exact Or.inl hanc
      · exact (hjoins n k hs hnot).imp_right fun hk => ⟨hs, hk⟩

theorem OneChain.onFinalizedBlock {b : Block} {l : List SealedHeader} (h : OneChain W c) (hd : Delivered W b l)
    (hjoins : OpJoins W c (.finalizedBlock b l)) : OneChain W (c.onFinalizedBlock b l) := by
  refine h.joins b.hash (h.toWf.onFinalizedBlock hd.known fun x hx => (hd.linked.mem x hx).1) ?_ ?_
  · intro k x hx
    rw [onFinalizedBlock_blocks] at hx
    exact h.linked.set hd.link hx
  · intro n k hg
    rcases hd.entry hg with hanc | ⟨hs, hn, hne⟩
    · exact Or.inl hanc
    · exact (hjoins n k hs hn hne).imp_right fun hk => ⟨hs, hk⟩

theorem OneChain.step (h : OneChain W c) {op : Op} (hok : OpOk W c op) (hjoins : OpJoins W c op) :
    OneChain W (c.step op) := by
  cases op with
  | insertBlock block witness =>
    exact ⟨⟨h.state.insertBlock hok.known, h.head⟩, fun k x hx => h.linked.set (hok.link h.state) hx, h.comparable⟩
  | finalizedBlock block ancestors => exact h.onFinalizedBlock hok hjoins
  | makeCanonical target => exact h.makeCanonical hjoins
  | removeBlocksOnFinalized hash =>
    exact ⟨⟨h.state.removeBlocksOnFinalized hash, h.head⟩,
      fun k b hb => h.linked k b (ChainState.removeBlocksOnFinalized_block hb),
      fun n k m k' hg hg' => h.comparable n k m k' (ChainState.removeBlocksOnFinalized_entry hg)
        (ChainState.removeBlocksOnFinalized_entry hg')⟩

/-- **Block hashes are sound where the canonical entries lie on one chain**, also for a block on a side fork. -/
theorem OneChain.blockHash_sound (h : OneChain W c) : BlockHashSound W c := by
  intro parent _ n k _ _ hk
  unfold ChainState.blockHash at hk
  split at hk
  · rename_i found hw
    cases hk
    exact ancestorWalk_anc h.state h.linked hw
  · rename_i stop hw
    split_ifs at hk with hcond
    obtain ⟨hle, hcanon⟩ := hcond
    have hstop := h.state.canon _ _ hcanon
    have hkn := h.state.canon _ _ hk
    have hanc : W.Anc parent.hash stop.hash := ancestorWalk_anc h.state h.linked hw _ hstop
    exact ⟨hanc.trans ((h.comparable _ _ _ _ hk hcanon).anc hkn hstop hle), hkn⟩

theorem Sound.blockHash_sound (h : Sound W c) : BlockHashSound W c := h.oneChain.blockHash_sound

/-! ## Two branches -/

/-- block `n` of the main branch: its hash is `n + 1` -/
def mainBlock (n : ℕ) : Block :=
  ⟨⟨⟨BitVec.ofNat 256 n, n, 0, 0, []⟩, BitVec.ofNat 256 (n + 1)⟩, ⟨[], []⟩⟩

/-- block `n` of a branch beside the main one, from height 1 on: its hash is `1000 + n` -/
def sideBlock (n : ℕ) : Block :=
  ⟨⟨⟨if n = 1 then 1 else BitVec.ofNat 256 (999 + n), n, 0, 0, []⟩, BitVec.ofNat 256 (1000 + n)⟩, ⟨[], []⟩⟩

/-- a main branch of 400 blocks, and two blocks beside it above genesis -/
def twoBranches : World where
  header h :=
    if 1000 < h.toNat ∧ h.toNat ≤ 1002 then some (sideBlock (h.toNat - 1000)).toSealedHeader
    else if 0 < h.toNat ∧ h.toNat ≤ 400 then some (mainBlock (h.toNat - 1)).toSealedHeader
    else none
  genesis := mainBlock 0
  hash_eq := by
    intro h x hx
    split_ifs at hx with h1 h2
    · rw [← Option.some.inj hx]
      apply BitVec.eq_of_toNat_eq
      show (BitVec.ofNat 256 (1000 + (h.toNat - 1000))).toNat = h.toNat
      have hto : 1000 + (h.toNat - 1000) = h.toNat := by omega
      rw [hto, BitVec.toNat_ofNat, Nat.mod_eq_of_lt h.isLt]
    · rw [← Option.some.inj hx]
      apply BitVec.eq_of_toNat_eq
      show (BitVec.ofNat 256 (h.toNat - 1 + 1)).toNat = h.toNat
      rw [Nat.sub_add_cancel h2.1, BitVec.toNat_ofNat, Nat.mod_eq_of_lt h.isLt]
  genesis_known := by decide
  genesis_number := rfl
  genesis_root := by decide

theorem mainBlock_knows {n : ℕ} (hn : n < 400) : twoBranches.Knows (mainBlock n).toSealedHeader := by
  have hto : (BitVec.ofNat 256 (n + 1)).toNat = n + 1 := by
    rw [BitVec.toNat_ofNat, Nat.mod_eq_of_lt (by omega)]
  show twoBranches.header (BitVec.ofNat 256 (n + 1)) = _
  simp only [twoBranches, hto]
  rw [if_neg (by omega), if_pos ⟨by omega, by omega⟩, Nat.add_sub_cancel]

theorem mainBlock_link {n : ℕ} (hn : n + 1 < 400) : twoBranches.Link (mainBlock (n + 1)).hash (mainBlock n).hash :=
  ⟨_, _, mainBlock_knows hn, mainBlock_knows (by omega), rfl, rfl⟩

theorem mainBlock_anc {n m : ℕ} (hn : n < 400) (hm : m ≤ n) :
    twoBranches.Anc (mainBlock n).hash (mainBlock m).hash := by
  induction n with
  | zero => rw [Nat.le_zero.1 hm]; exact Relation.ReflTransGen.refl
  | succ n ih =>
    rcases Nat.lt_or_ge m (n + 1) with hlt | hge
    · exact Relation.ReflTransGen.head (mainBlock_link hn) (ih (by omega) (by omega))
    · rw [le_antisymm hm hge]; exact Relation.ReflTransGen.refl

theorem sideBlock_knows :
    twoBranches.Knows (sideBlock 1).toSealedHeader ∧ twoBranches.Knows (sideBlock 2).toSealedHeader := by
  constructor <;> rfl

/-- the `k` headers below block `n` of the main branch, as a finalized download delivers them -/
def mainAncestors : ℕ → ℕ → List SealedHeader
  | _, 0 => []
  | n, k + 1 => (mainBlock (n - 1)).toSealedHeader :: mainAncestors (n - 1) k

theorem mainAncestors_linked {n k : ℕ} (hn : n < 400) (hk : k ≤ n) :
    LinkedFrom twoBranches (mainBlock n).hash (mainAncestors n k) := by
  induction k generalizing n with
  | zero => trivial
  | succ k ih =>
    obtain ⟨m, rfl⟩ : ∃ m, n = m + 1 := ⟨n - 1, by omega⟩
    exact ⟨mainBlock_knows (by simp; omega), mainBlock_link hn, ih (by simp; omega) (by simp; omega)⟩

theorem mainAncestors_length (n k : ℕ) : (mainAncestors n k).length = k := by
  induction k generalizing n with
  | zero => rfl
  | succ k ih => simp [mainAncestors, ih]

theorem mainBlock_delivered {n k : ℕ} (hn : n < 400) (hk : k ≤ n) (hlen : 256 ≤ k) :
    Delivered twoBranches (mainBlock n) (mainAncestors n k) :=
  ⟨mainBlock_knows hn, mainAncestors_linked hn hk, by rw [mainAncestors_length]; exact hlen⟩

/-- **Block hashes in runs.** In every run in which what becomes canonical lies on one chain with the canonical entries
that it leaves, block hashes are sound in every state. -/
theorem runs_blockHash_sound (W : World) (ops : List Op)
    (hops : Run.AllSteps step (fun c op => OpOk W c op ∧ OpJoins W c op) (launch W.genesis) ops) :
    Run.Always step (BlockHashSound W) (launch W.genesis) ops :=
  Run.run_always (fun _ _ h hok => h.step hok.1 hok.2) (fun _ h => h.blockHash_sound) (sound_launch W).oneChain hops

/-- two finalized downloads of one chain, the higher block first -/
theorem runs_blockHash_sound_download :
    Run.Always step (BlockHashSound twoBranches) (launch twoBranches.genesis)
      [.finalizedBlock (mainBlock 300) (mainAncestors 300 256), .finalizedBlock (mainBlock 258) (mainAncestors 258 256),
        .removeBlocksOnFinalized (mainBlock 258).hash] := by
  apply runs_blockHash_sound
  have hdelivered : Delivered twoBranches (mainBlock 300) (mainAncestors 300 256) :=
    mainBlock_delivered (by omega) (by omega) le_rfl
  have hfits : FinalizedFits twoBranches (launch twoBranches.genesis) (mainBlock 300) (mainAncestors 300 256) := by
    intro n h hg _ _
    simp only [launch, ChainState.insertCanonicalHash, ChainState.insertBlock, ChainState.empty, FMap.get_set] at hg
    split_ifs at hg with hn
    · cases hg
      exact mainBlock_anc (n := 300) (m := 0) (by omega) (by omega)
    · simp at hg
  refine ⟨⟨hdelivered, ?_⟩,
    ⟨mainBlock_delivered (by omega) (by omega) le_rfl, ?_⟩, ⟨trivial, trivial⟩, trivial⟩
  · intro n h hg hn hne
    exact Or.inl (hfits n h hg hn hne)
  · intro n h hg _ _
    have hsound := (sound_launch twoBranches).onFinalizedBlock hdelivered hfits
    exact Comparable.below (mainBlock_anc (by omega) (by omega)) (hsound.canonAnc n h hg)

/-- the finalized downloads of a run lie on one chain -/
def OnOneChain (W : World) (ops : List Op) : Prop :=
  ∀ b l b' l', .finalizedBlock b l ∈ ops → .finalizedBlock b' l' ∈ ops → W.Anc b.hash b'.hash ∨ W.Anc b'.hash b.hash

/-- the side block is made canonical, and the finalized block of the main branch leaves its entry at height 1 -/
def otherBranchRun : List Op :=
  [.insertBlock (mainBlock 1) none, .insertBlock (mainBlock 2) none, .insertBlock (mainBlock 3) none,
    .insertBlock (sideBlock 1) none, .makeCanonical (sideBlock 1).hash,
    .finalizedBlock (mainBlock 258) (mainAncestors 258 256), .removeBlocksOnFinalized (mainBlock 3).hash]

theorem otherBranchRun_ok : Run.AllSteps step (OpOk twoBranches) (launch twoBranches.genesis) otherBranchRun := by
  refine ⟨⟨mainBlock_knows (by omega), mainBlock 0, by decide +kernel, rfl⟩,
    ⟨mainBlock_knows (by omega), mainBlock 1, by decide +kernel, rfl⟩,
    ⟨mainBlock_knows (by omega), mainBlock 2, by decide +kernel, rfl⟩,
    ⟨sideBlock_knows.1, mainBlock 0, by decide +kernel, rfl⟩, trivial,
    mainBlock_delivered (by omega) (by omega) le_rfl, trivial, trivial⟩

/-- **A block hash of the other branch.** After the run, the hash at height 1 asked for block 3 of the main branch is
the side block's. -/
theorem blockHash_of_other_branch :
    Run.AllSteps step (OpOk twoBranches) (launch twoBranches.genesis) otherBranchRun ∧
      OnOneChain twoBranches otherBranchRun ∧
      ¬ BlockHashSound twoBranches (Run.run step (launch twoBranches.genesis) otherBranchRun) := by
  refine ⟨otherBranchRun_ok, ?_, ?_⟩
  · intro b l b' l' hb hb'
    simp only [otherBranchRun, List.mem_cons, List.not_mem_nil, reduceCtorEq, Op.finalizedBlock.injEq, false_or,
      or_false] at hb hb'
    rw [hb.1, hb'.1]
    exact Or.inl Relation.ReflTransGen.refl
  · intro hsound
    have hstored : (Run.run step (launch twoBranches.genesis) otherBranchRun).state.blocksByHash.get (mainBlock 3).hash
        = some (mainBlock 3) := by decide +kernel
    have hanswer : (Run.run step (launch twoBranches.genesis) otherBranchRun).state.blockHash (mainBlock 3).numHash 1
        = some (sideBlock 1).hash := by decide +kernel
    obtain ⟨hanc, hnum⟩ := hsound (mainBlock 3) hstored 1 (sideBlock 1).hash (by decide) (by decide) hanswer
    have hmain := mainBlock_anc (n := 3) (m := 1) (by omega) (by omega)
    have heq : (sideBlock 1).hash = (mainBlock 1).hash := by
      refine Ancestry.unique World.link_fun World.link_num hanc hmain ?_
      rw [hnum.num_eq, (mainBlock_knows (n := 1) (by omega)).hasNumber.num_eq]
      rfl
    exact absurd heq (by decide)

end Chain

end Ress
