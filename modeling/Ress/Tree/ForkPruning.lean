/-
Finalization and side forks: when a stored block loses its connection to the canonical chain.

`ChainState` documents that it keeps blocks connected to the canonical chain (`Connected`): following parents through
stored blocks ends at a block that is canonical, or whose parent is. Finalization removes blocks by height, on every
fork at once, and leaves a side fork without its lower part.

- `Floored`: from a height on, the blocks of the canonical chain are stored, and nothing below that height is; the
  canonical map has the chain from one height below. Every run keeps it, and a finalization raises the height.
- `Floored.insertBlock_connected`, `Floored.makeCanonical_connected`: inserting and moving the head keep `Connected`.
- `Floored.removeBlocksOnFinalized_connected`: finalization keeps it exactly when every block stored at the finalized
  block's height is canonical or the child of the canonical block below (`ForkFits`).
- `runs_connected_iff`, `side_fork_loses_parent`: so over whole runs, and a run that fails.
-/
import Ress.Provider.Finalization
import Ress.Tree.CanonicalUpdate

namespace Ress

namespace ChainState

variable {W : World} {s : ChainState}

/-! ## Finalization leaves nothing below -/

/-- every stored block is indexed under its number -/
def Indexed (s : ChainState) : Prop :=
  ∀ h b, s.blocksByHash.get h = some b → ∃ hs, s.blockHashesByNumber.get b.number = some hs ∧ h ∈ hs

theorem Indexed.insertBlock (hs : s.Indexed) (b : Block) (w : Option (List Bytes)) : (s.insertBlock b w).Indexed := by
  intro h x hx
  simp only [ChainState.insertBlock, FMap.get_set] at hx ⊢
  split_ifs at hx with hh
  · cases hx
    exact ⟨_, if_pos rfl, hh ▸ Finset.mem_insert_self _ _⟩
  · obtain ⟨hs', hget, hmem⟩ := hs h x hx
    by_cases hn : x.number = b.number
    · refine ⟨_, if_pos hn, Finset.mem_insert_of_mem ?_⟩
      rw [← hn, hget]
      exact hmem
    · exact ⟨hs', (if_neg hn).trans hget, hmem⟩

/-- **What is left after a finalization** is at the finalized block's height or above, and is still indexed. -/
theorem Indexed.removeBlocksOnFinalized (hs : s.Indexed) {hash : B256} {finalized : Block}
    (hf : s.blocksByHash.get hash = some finalized) {h : B256} {b : Block}
    (hb : (s.removeBlocksOnFinalized hash).blocksByHash.get h = some b) :
    s.blocksByHash.get h = some b ∧ finalized.number ≤ b.number ∧
      ∃ hs', (s.removeBlocksOnFinalized hash).blockHashesByNumber.get b.number = some hs' ∧ h ∈ hs' := by
  obtain ⟨hblocks, hindex⟩ := popCanonicalHashes_frame (finalized.number - 256)
    (popBlocks finalized.number s.blockHashesByNumber.keys.card s).canonicalHashesByNumber.keys.card
    (popBlocks finalized.number s.blockHashesByNumber.keys.card s)
  simp only [ChainState.removeBlocksOnFinalized, hf] at hb ⊢
  rw [hblocks] at hb
  rw [hindex]
  have hbefore := (popBlocks_pruned _ _ s).sub h b hb
  obtain ⟨hs', hget, hmem⟩ := hs h b hbefore
  have hle : finalized.number ≤ b.number := by
    by_contra hlt
    rw [(popBlocks_get _ _ s le_rfl h).1, if_pos ⟨b.number, hs', not_le.1 hlt, hget, hmem⟩] at hb
    cases hb
  refine ⟨hbefore, hle, hs', ?_, hmem⟩
  rw [popBlocks_index _ _ s le_rfl, if_neg (by omega), hget]

/-! ## Connected to the canonical chain -/

/-- the block is canonical at its height, or its parent is at the height below -/
def Anchored (s : ChainState) (x : SealedHeader) : Prop :=
  s.canonicalHashesByNumber.get x.number = some x.hash ∨
    ∃ n, x.number = n + 1 ∧ s.canonicalHashesByNumber.get n = some x.parentHash

/-- from every stored block, parents through stored blocks lead to an anchored one -/
def Connected (s : ChainState) : Prop :=
  ∀ h b, s.blocksByHash.get h = some b →
    ∃ a x, s.StoredAnc h a ∧ s.blocksByHash.get a = some x ∧ s.Anchored x.toSealedHeader

theorem StoredAnc.stored {h a : B256} {x : Block} (hanc : s.StoredAnc h a) (hx : s.blocksByHash.get a = some x) :
    ∃ b, s.blocksByHash.get h = some b := by
  rcases Relation.ReflTransGen.cases_head hanc with rfl | ⟨p, ⟨b, hb, -⟩, -⟩
  · exact ⟨x, hx⟩
  · exact ⟨b, hb⟩

end ChainState

namespace Chain

open ChainState (StoredAnc)

variable {W : World} {c : Chain} {floor : ℕ}

/-! ## The canonical chain is stored from a height on -/

/-- from `floor` on, the blocks of the head's chain are stored, and no other block is below; the canonical map has the
chain from one height below -/
structure Floored (W : World) (c : Chain) (floor : ℕ) : Prop extends Coherent W c where
  indexed : c.state.Indexed
  lowest : ∀ h b, c.state.blocksByHash.get h = some b → floor ≤ b.number
  stored : ∀ h, W.Anc c.head.hash h → floor ≤ W.num h → c.state.Stored h
  entry : ∀ h, W.Anc c.head.hash h → floor ≤ W.num h + 1 → c.state.canonicalHashesByNumber.get (W.num h) = some h

theorem Floored.followsHead (h : Floored W c floor) : FollowsHead W c := by
  refine ⟨h.state.known, h.linked, h.head, ?_, ?_⟩
  · intro k b hanc hb
    obtain ⟨hbk, hbw⟩ := h.state.known k b hb
    have hnum : W.HasNumber k b.number := hbk ▸ hbw.hasNumber
    have hlow := h.lowest k b hb
    rw [← hnum.num_eq]
    exact h.entry k (hanc.anc h.state.known h.linked hnum) (by rw [hnum.num_eq]; omega)
  · intro n hn
    cases hg : c.state.canonicalHashesByNumber.get n with
    | none => rfl
    | some k => have := h.entry_le hg; omega

theorem floored_launch (W : World) : Floored W (launch W.genesis) 0 := by
  have hgen : W.HasNumber W.genesis.hash 0 := ⟨_, W.genesis_known, W.genesis_number⟩
  have hself : ∀ k, W.Anc W.genesis.hash k → k = W.genesis.hash := by
    intro k hk
    have hle := Ancestry.num_le World.link_num hk
    rw [hgen.num_eq] at hle
    exact Ancestry.eq_of_num World.link_num hk (by rw [hgen.num_eq]; omega)
  have hcoherent := coherent_launch W
  refine ⟨hcoherent, ?_, fun _ _ _ => Nat.zero_le _, ?_, ?_⟩
  · have hempty : ChainState.empty.Indexed := by intro h b hb; simp [ChainState.empty] at hb
    exact hempty.insertBlock W.genesis none
  · intro k hk _
    rw [hself k hk]
    exact hcoherent.headStored
  · intro k hk _
    rw [hself k hk, hgen.num_eq]
    simpa [launch, SealedHeader.numHash, W.genesis_number] using hcoherent.headCanon

theorem Floored.insertBlock {b : Block} {w : Option (List Bytes)} (h : Floored W c floor) (hb : Child W c.state b) :
    Floored W { c with state := c.state.insertBlock b w } floor := by
  refine ⟨h.toCoherent.insertBlock hb, h.indexed.insertBlock b w, ?_, ?_, h.entry⟩
  · intro k x hx
    simp only [ChainState.insertBlock, FMap.get_set] at hx
    split_ifs at hx with hk
    · cases hx
      obtain ⟨p, hp, hn⟩ := hb.parent
      have := h.lowest _ p hp
      omega
    · exact h.lowest k x hx
  · intro k hk hn
    exact ChainState.stored_insertBlock.2 (Or.inr (h.stored k hk hn))

section Update

variable {target base : B256} {update : NewCanonicalChain}

/-- the base of an update is at most one below the floor: the block above it on the new chain is stored -/
theorem Floored.base_ge (h : Floored W c floor) (hp : UpdateParts W c target update base) :
    floor ≤ W.num base + 1 := by
  have hf := h.followsHead
  obtain ⟨hhash, hnum⟩ := hp.target_number hf
  have htip : update.tip ∈ update.new := by
    cases update with
    | commit new ne => exact List.getLast_mem ne
    | reorg new ne old => exact List.getLast_mem ne
  have hlt := hp.newSegment.number_lt h.state.known hp.newStored _ htip
  obtain ⟨x, hx, hxn⟩ := hp.newSegment.exists_number h.state.known hp.newStored (Nat.lt_succ_self (W.num base))
    (by rw [hnum.num_eq]; omega)
  obtain ⟨-, b, hb, hbn⟩ := UpdateParts.stored hf hp.newStored hx
  have := h.lowest _ b hb
  omega

/-- an ancestor of the new head is a block of the new chain, or an ancestor of the base -/
theorem UpdateParts.anc_cases (hp : UpdateParts W c target update base) {k : B256} (hk : W.Anc target k) :
    (∃ x ∈ update.new, x.hash = k) ∨ W.Anc base k ∧ W.num k ≤ W.num base := by
  rcases Ancestry.segment_split World.link_fun hp.newSegment hk with hmem | hanc
  · obtain ⟨x, hx, rfl⟩ := List.mem_map.1 hmem
    exact Or.inl ⟨x, hx, rfl⟩
  · exact Or.inr ⟨hanc, Ancestry.num_le World.link_num hanc⟩

theorem Floored.onCanonicalChainUpdate (h : Floored W c floor) (hu : c.state.onNewHead c.head target = some update) :
    Floored W (c.onCanonicalChainUpdate update) floor := by
  have hf := h.followsHead
  obtain ⟨base, hp⟩ := hf.parts hu
  obtain ⟨hhash, hnum⟩ := hp.target_number hf
  have hbase : W.Anc c.head.hash base := hp.oldSegment.anc
  have hblocks := onCanonicalChainUpdate_blocks c update
  have hhead : (c.onCanonicalChainUpdate update).head.hash = target := hhash
  refine ⟨h.toCoherent.onCanonicalChainUpdate hu, ?_, ?_, ?_, ?_⟩
  · intro k b hb
    obtain ⟨-, hindex, -⟩ := ChainState.onChainUpdate_frame update.new update.old c.state
    obtain ⟨hs, hget, hmem⟩ := h.indexed k b (hblocks ▸ hb)
    exact ⟨hs, by rw [Chain.onCanonicalChainUpdate, hindex, hget], hmem⟩
  · intro k b hb
    exact h.lowest k b (hblocks ▸ hb)
  · intro k hk hn
    simp only [ChainState.Stored, hblocks]
    rw [hhead] at hk
    rcases hp.anc_cases hk with ⟨x, hx, rfl⟩ | ⟨hanc, -⟩
    · obtain ⟨-, b, hb, -⟩ := UpdateParts.stored hf hp.newStored hx
      exact ⟨b, hb⟩
    · exact h.stored k (hbase.trans hanc) hn
  · intro k hk hn
    rw [hhead] at hk
    rcases hp.anc_cases hk with ⟨x, hx, rfl⟩ | ⟨hanc, hle⟩
    · have hxn := (UpdateParts.stored hf hp.newStored hx).1
      have hlo := hp.newSegment.number_lt h.state.known hp.newStored x hx
      have hhi := Ancestry.num_le World.link_num hk
      rw [hnum.num_eq, hxn.num_eq] at hhi
      obtain ⟨y, hy, hyn, -, hget⟩ := hp.entry_new hf hlo hhi
      have hyx : y.hash = x.hash := by
        refine Ancestry.unique World.link_fun World.link_num (hp.newSegment.mem_anc _ (List.mem_map_of_mem hy)) hk ?_
        rw [(UpdateParts.stored hf hp.newStored hy).1.num_eq, hxn.num_eq, hyn]
      rw [hxn.num_eq, hget, hyx]
    · rw [hp.entry_base hf hle]
      exact h.entry k (hbase.trans hanc) hn

end Update

theorem Floored.makeCanonical (h : Floored W c floor) (target : B256) : Floored W (c.makeCanonical target) floor := by
  unfold Chain.makeCanonical
  split
  · rename_i update hu
    exact h.onCanonicalChainUpdate hu
  · exact h

/-- finalization raises the floor to the finalized block -/
theorem Floored.removeBlocksOnFinalized (h : Floored W c floor) {hash : B256} (hcanon : c.state.IsHashCanonical hash)
    {f : Block} (hf : c.state.blocksByHash.get hash = some f) :
    Floored W { c with state := c.state.removeBlocksOnFinalized hash } f.number := by
  have hfloor := h.lowest hash f hf
  refine ⟨h.toCoherent.removeBlocksOnFinalized hcanon, ?_, ?_, ?_, ?_⟩
  · intro k b hb
    exact (h.indexed.removeBlocksOnFinalized hf hb).2.2
  · intro k b hb
    exact (h.indexed.removeBlocksOnFinalized hf hb).2.1
  · intro k hk hn
    obtain ⟨b, hb⟩ := h.stored k hk (by omega)
    obtain ⟨hbk, hbw⟩ := h.state.known k b hb
    have hnum : W.HasNumber k b.number := hbk ▸ hbw.hasNumber
    exact ⟨b, ChainState.removeBlocksOnFinalized_keeps h.state.indexed hf hb hnum (hnum.num_eq ▸ hn)⟩
  · intro k hk hn
    rcases ChainState.removeBlocksOnFinalized_cases c.state hash with ⟨hnone, -⟩ | ⟨f', hf', hpruned⟩
    · cases hnone.symm.trans hf
    · cases hf'.symm.trans hf
      simp only [hpruned.canonical]
      rw [if_neg (by omega)]
      exact h.entry k hk (by omega)

/-! ## What keeps the blocks connected -/

/-- a stored child of a stored block is connected where its parent is -/
theorem Floored.insertBlock_connected {b : Block} {w : Option (List Bytes)} (h : Floored W c floor)
    (hconn : c.state.Connected) (hb : Child W c.state b) : (c.state.insertBlock b w).Connected := by
  -- a block that is stored again has the same header
  have hkeep : ∀ k x, c.state.blocksByHash.get k = some x →
      ∃ x', (c.state.insertBlock b w).blocksByHash.get k = some x' ∧ x'.toSealedHeader = x.toSealedHeader := by
    intro k x hx
    simp only [ChainState.insertBlock, FMap.get_set]
    split_ifs with hk
    · obtain ⟨hxk, hxw⟩ := h.state.known k x hx
      exact ⟨b, rfl, hb.known.eq hxw (hk.symm.trans hxk.symm)⟩
    · exact ⟨x, hx, rfl⟩
  have hmono : ∀ k a, c.state.StoredAnc k a → (c.state.insertBlock b w).StoredAnc k a := by
    intro k a hanc
    refine hanc.lift id ?_
    rintro d p ⟨x, hx, rfl⟩
    obtain ⟨x', hx', heq⟩ := hkeep d x hx
    exact ⟨x', hx', congrArg (fun x => x.parentHash) heq⟩
  have hold : ∀ k x, c.state.blocksByHash.get k = some x → ∃ a y, (c.state.insertBlock b w).StoredAnc k a ∧
      (c.state.insertBlock b w).blocksByHash.get a = some y ∧ (c.state.insertBlock b w).Anchored y.toSealedHeader := by
    intro k x hx
    obtain ⟨a, y, hanc, hy, hanchor⟩ := hconn k x hx
    obtain ⟨y', hy', heq⟩ := hkeep a y hy
    exact ⟨a, y', hmono k a hanc, hy', heq ▸ hanchor⟩
  intro k x hx
  by_cases hk : k = b.hash
  · obtain ⟨p, hp, -⟩ := hb.parent
    obtain ⟨a, y, hanc, hy, hanchor⟩ := hold _ p hp
    refine ⟨a, y, Relation.ReflTransGen.head ⟨b, ?_, rfl⟩ hanc, hy, hanchor⟩
    rw [hk]
    exact FMap.get_set_self _ _ _
  · refine hold k x ?_
    simpa [ChainState.insertBlock, FMap.get_set, hk] using hx

section Update

variable {target base : B256} {update : NewCanonicalChain}

/-- **What a reorg leaves connected.** Below a canonical block above the base, stored parents lead to the first block of
the old chain, whose parent stays canonical. -/
theorem Floored.old_anchored (h : Floored W c floor) (hp : UpdateParts W c target update base) {n : ℕ} {k : B256}
    (hget : c.state.canonicalHashesByNumber.get n = some k) (hn : W.num base < n) :
    ∃ a x, c.state.StoredAnc k a ∧ c.state.blocksByHash.get a = some x ∧
      (c.onCanonicalChainUpdate update).state.Anchored x.toSealedHeader := by
  have hf := h.followsHead
  have hk := h.state.known
  have hstored := fun {x} hx => UpdateParts.stored (x := x) hf hp.oldStored hx
  have hhead := (hp.oldSegment.storedAnc hk hp.oldStored).2
  have hle := h.entry_le hget
  have htop := h.head.num_eq
  -- the entry is a block of the old chain
  obtain ⟨y, hy, hyn⟩ := hp.oldSegment.exists_number hk hp.oldStored hn (htop ▸ hle)
  have hyk : y.hash = k := by
    refine Ancestry.unique World.link_fun World.link_num (hp.oldSegment.mem_anc _ (List.mem_map_of_mem hy))
      (h.canonAnc n k hget) ?_
    rw [(hstored hy).1.num_eq, (h.state.canon n k hget).num_eq, hyn]
  obtain ⟨z, hz, hzn⟩ := hp.oldSegment.exists_number hk hp.oldStored (Nat.lt_succ_self (W.num base)) (by omega)
  obtain ⟨hznum, b, hb, hbn⟩ := hstored hz
  have hkz : c.state.StoredAnc k z.hash := by
    rw [← hyk]
    exact (hhead y hy).of_le hk h.linked (hhead z hz) (hstored hy).1 hznum (by omega)
  refine ⟨z.hash, b, hkz, hb, Or.inr ⟨W.num base, hbn.trans hzn, ?_⟩⟩
  rw [hp.entry_base hf le_rfl, h.entry base hp.oldSegment.anc (h.base_ge hp), Option.some.injEq]
  -- the parent of the first old block is the base
  have hzbase : c.state.StoredAnc z.hash base :=
    (hhead z hz).of_le hk h.linked (hp.oldSegment.storedAnc hk hp.oldStored).1 hznum hp.height (by omega)
  rcases Relation.ReflTransGen.cases_head hzbase with heq | ⟨p, ⟨b', hb', hpar⟩, hrest⟩
  · rw [← heq, hznum.num_eq] at hzn
    omega
  · rw [hb] at hb'
    cases hb'
    have hanc := StoredAnc.anc hk h.linked hrest hp.height
    have hnum : W.num z.hash = W.num p + 1 := by
      rcases h.linked _ b hb with hgen | hlink
      · have := W.genesis_number
        rw [hgen] at hznum
        have := hznum.unique ⟨_, W.genesis_known, this⟩
        omega
      · exact World.link_num _ _ (hpar ▸ hlink)
    rw [hznum.num_eq] at hnum
    rw [hpar]
    exact Ancestry.eq_of_num World.link_num hanc (by omega)

theorem Floored.onCanonicalChainUpdate_connected (h : Floored W c floor) (hconn : c.state.Connected)
    (hu : c.state.onNewHead c.head target = some update) : (c.onCanonicalChainUpdate update).state.Connected := by
  have hf := h.followsHead
  obtain ⟨base, hp⟩ := hf.parts hu
  have hblocks := onCanonicalChainUpdate_blocks c update
  intro k b hb
  rw [hblocks] at hb
  obtain ⟨a, x, hanc, hx, hanchor⟩ := hconn k b hb
  -- from the anchor on: it stays, or the old chain takes over
  suffices hsuff : ∃ a' x', c.state.StoredAnc a a' ∧ c.state.blocksByHash.get a' = some x' ∧
      (c.onCanonicalChainUpdate update).state.Anchored x'.toSealedHeader by
    obtain ⟨a', x', hanc', hx', hanchor'⟩ := hsuff
    exact ⟨a', x', (onCanonicalChainUpdate_storedAnc c update k a').2 (hanc.trans hanc'), hblocks ▸ hx', hanchor'⟩
  obtain ⟨hxa, -⟩ := h.state.known a x hx
  rcases hanchor with hself | ⟨n, hxn, hpar⟩
  · rcases Nat.lt_or_ge (W.num base) x.number with hlt | hge
    · exact hxa ▸ h.old_anchored hp hself hlt
    · exact ⟨a, x, Relation.ReflTransGen.refl, hx, Or.inl ((hp.entry_base hf hge).trans hself)⟩
  · rcases Nat.lt_or_ge (W.num base) n with hlt | hge
    · obtain ⟨a', x', hanc', hx', hanchor'⟩ := h.old_anchored hp hpar hlt
      exact ⟨a', x', Relation.ReflTransGen.head ⟨x, hx, rfl⟩ hanc', hx', hanchor'⟩
    · exact ⟨a, x, Relation.ReflTransGen.refl, hx, Or.inr ⟨n, hxn, (hp.entry_base hf hge).trans hpar⟩⟩

end Update

theorem Floored.makeCanonical_connected (h : Floored W c floor) (hconn : c.state.Connected) (target : B256) :
    (c.makeCanonical target).state.Connected := by
  unfold Chain.makeCanonical
  split
  · rename_i update hu
    exact h.onCanonicalChainUpdate_connected hconn hu
  · exact hconn

/-! ## When a finalization keeps them connected -/

/-- every block stored at the finalized block's height is canonical or the child of a canonical block -/
def ForkFits (c : Chain) (hash : B256) : Prop :=
  ∀ f, c.state.blocksByHash.get hash = some f → ∀ h b, c.state.blocksByHash.get h = some b → b.number = f.number →
    c.state.Anchored b.toSealedHeader

/-- **Finalization cuts side forks off exactly there.** -/
theorem Floored.removeBlocksOnFinalized_connected (h : Floored W c floor) (hconn : c.state.Connected) (hash : B256) :
    (c.state.removeBlocksOnFinalized hash).Connected ↔ ForkFits c hash := by
  rcases ChainState.removeBlocksOnFinalized_cases c.state hash with ⟨hnone, heq⟩ | ⟨f, hf, hpruned⟩
  · rw [heq]
    exact ⟨fun _ f hf => absurd (hnone.symm.trans hf) (by simp), fun _ => hconn⟩
  have hkept : ∀ k b, c.state.blocksByHash.get k = some b → f.number ≤ b.number →
      (c.state.removeBlocksOnFinalized hash).blocksByHash.get k = some b := by
    intro k b hb hle
    obtain ⟨hbk, hbw⟩ := h.state.known k b hb
    exact ChainState.removeBlocksOnFinalized_keeps h.state.indexed hf hb (hbk ▸ hbw.hasNumber) hle
  have hleft := fun {k b} hb => h.indexed.removeBlocksOnFinalized (h := k) (b := b) hf hb
  -- the entries around the finalized height stay
  have hanchored : ∀ x : SealedHeader, f.number ≤ x.number →
      ((c.state.removeBlocksOnFinalized hash).Anchored x ↔ c.state.Anchored x) := by
    intro x hle
    have hself := hpruned.canonical x.number
    rw [if_neg (by omega)] at hself
    have hpar : ∀ n, x.number = n + 1 →
        (c.state.removeBlocksOnFinalized hash).canonicalHashesByNumber.get n = c.state.canonicalHashesByNumber.get n := by
      intro n hn
      rw [hpruned.canonical, if_neg (by omega)]
    simp only [ChainState.Anchored, hself]
    refine or_congr_right (exists_congr fun n => and_congr_right fun hn => ?_)
    rw [hpar n hn]
  constructor
  · intro hafter f' hf' k b hb hbn
    cases hf.symm.trans hf'
    obtain ⟨a, x, hanc, hx, hanchor⟩ := hafter k b (hkept k b hb hbn.ge)
    rcases Relation.ReflTransGen.cases_head hanc with rfl | ⟨p, ⟨b', hb', hpar⟩, hrest⟩
    · rw [(hleft hx).1] at hb
      cases hb
      exact (hanchored _ hbn.ge).1 hanchor
    · -- the parent would be left below the finalized height
      obtain ⟨y, hy⟩ := StoredAnc.stored hrest hx
      obtain ⟨hy, hle, -⟩ := hleft hy
      rw [(hleft hb').1] at hb
      cases hb
      have := h.linked.parent_number h.state.known (hleft hb').1 (hpar ▸ hy)
      omega
  · intro hfits k b hafter
    obtain ⟨hb, hle, -⟩ := hleft hafter
    clear hafter
    obtain ⟨a, x, hanc, hx, hanchor⟩ := hconn k b hb
    -- down the fork, to its anchor or to the finalized height
    induction hanc using Relation.ReflTransGen.head_induction_on generalizing b with
    | refl =>
      cases hb.symm.trans hx
      exact ⟨a, x, Relation.ReflTransGen.refl, hkept a x hx hle, (hanchored _ hle).2 hanchor⟩
    | @head d p hlink hrest ih =>
      rcases Nat.lt_or_ge f.number b.number with hlt | hge
      · obtain ⟨y, hy⟩ := StoredAnc.stored hrest hx
        obtain ⟨b', hb', hpar⟩ := hlink
        cases hb.symm.trans hb'
        have hnum := h.linked.parent_number h.state.known hb (hpar ▸ hy)
        obtain ⟨a', x', hanc', hx', hanchor'⟩ := ih y hy (by omega)
        exact ⟨a', x', Relation.ReflTransGen.head ⟨b, hkept d b hb hle, hpar⟩ hanc', hx', hanchor'⟩
      · exact ⟨d, b, Relation.ReflTransGen.refl, hkept d b hb hle,
          (hanchored _ hle).2 (hfits f hf d b hb (by omega))⟩

/-! ## Whole runs -/

/-- inserting children of stored blocks, canonical chain updates, and finalizations of canonical blocks -/
def ForkOpOk (W : World) (c : Chain) : Op → Prop
  | .insertBlock block _ => Child W c.state block
  | .finalizedBlock _ _ => False
  | .makeCanonical _ => True
  | .removeBlocksOnFinalized hash => c.state.IsHashCanonical hash

/-- the condition on a step: on finalizations only -/
def StepFits (c : Chain) : Op → Prop
  | .removeBlocksOnFinalized hash => ForkFits c hash
  | _ => True

theorem Floored.step (h : Floored W c floor) {op : Op} (hok : ForkOpOk W c op) :
    ∃ floor', Floored W (c.step op) floor' := by
  cases op with
  | insertBlock block witness => exact ⟨floor, h.insertBlock hok⟩
  | finalizedBlock block ancestors => exact absurd hok id
  | makeCanonical target => exact ⟨floor, h.makeCanonical target⟩
  | removeBlocksOnFinalized hash =>
    cases hf : c.state.blocksByHash.get hash with
    | none =>
      rcases ChainState.removeBlocksOnFinalized_cases c.state hash with ⟨-, heq⟩ | ⟨f, hf', -⟩
      · exact ⟨floor, by simpa only [Chain.step, heq] using h⟩
      · cases hf.symm.trans hf'
    | some f => exact ⟨f.number, h.removeBlocksOnFinalized hok hf⟩

theorem Floored.step_connected (h : Floored W c floor) (hconn : c.state.Connected) {op : Op} (hok : ForkOpOk W c op) :
    (c.step op).state.Connected ↔ StepFits c op := by
  cases op with
  | insertBlock block witness => exact iff_of_true (h.insertBlock_connected hconn hok) trivial
  | finalizedBlock block ancestors => exact absurd hok id
  | makeCanonical target => exact iff_of_true (h.makeCanonical_connected hconn target) trivial
  | removeBlocksOnFinalized hash => exact h.removeBlocksOnFinalized_connected hconn hash

theorem connected_launch (W : World) : (launch W.genesis).state.Connected := by
  intro k b hb
  simp only [launch, ChainState.insertCanonicalHash, ChainState.insertBlock, ChainState.empty, FMap.get_set] at hb
  split_ifs at hb with hk
  · cases hb
    refine ⟨k, W.genesis, Relation.ReflTransGen.refl, ?_, Or.inl ?_⟩
    · simp [launch, ChainState.insertCanonicalHash, ChainState.insertBlock, hk]
    · simp [launch, ChainState.insertCanonicalHash, W.genesis_number]
  · simp at hb

/-- **When stored blocks stay connected.** In every run, all stored blocks are connected to the canonical chain in
every state exactly if at every finalization the blocks stored at the finalized height are canonical or children of the
canonical block below. -/
theorem runs_connected_iff (W : World) (ops : List Op)
    (hops : Run.AllSteps step (ForkOpOk W) (launch W.genesis) ops) :
    Run.Always step (fun c => c.state.Connected) (launch W.genesis) ops ↔
      Run.AllSteps step StepFits (launch W.genesis) ops :=
  Run.always_iff_allSteps (I := fun c => ∃ floor, Floored W c floor) (fun _ _ ⟨_, h⟩ hok => h.step hok)
    (fun _ _ ⟨_, h⟩ hconn hok => h.step_connected hconn hok) ⟨0, floored_launch W⟩ (connected_launch W) hops

/-- a main branch and a side block at height 1, with the main block there finalized -/
def finalizeForkBlock : List Op :=
  [.insertBlock (mainBlock 1) none, .insertBlock (sideBlock 1) none, .makeCanonical (mainBlock 1).hash,
    .removeBlocksOnFinalized (mainBlock 1).hash]

/-- the side block is the child of genesis, so it stays, and stays connected -/
theorem runs_connected_iff_fork_block :
    Run.Always step (fun c => c.state.Connected) (launch twoBranches.genesis) finalizeForkBlock ∧
      (Run.run step (launch twoBranches.genesis) finalizeForkBlock).state.Stored (sideBlock 1).hash ∧
      ¬ (Run.run step (launch twoBranches.genesis) finalizeForkBlock).state.Stored (mainBlock 0).hash := by
  refine ⟨(runs_connected_iff twoBranches finalizeForkBlock
    ⟨⟨mainBlock_knows (by omega), mainBlock 0, by decide +kernel, rfl⟩,
      ⟨sideBlock_knows.1, mainBlock 0, by decide +kernel, rfl⟩, trivial,
      ChainState.isHashCanonical_iff.2 ⟨1, by decide +kernel⟩, trivial⟩).2 ⟨trivial, trivial, trivial, ?_, trivial⟩,
    ChainState.sealedHeader_isSome.1 (by decide +kernel), ChainState.sealedHeader_none.1 (by decide +kernel)⟩
  intro f hf h b hb hn
  have hkeys : (Run.run step (launch twoBranches.genesis) (finalizeForkBlock.take 3)).state.blocksByHash.keys =
      {1, 2, 1001} := by decide +kernel
  have hroot : (Run.run step (launch twoBranches.genesis) (finalizeForkBlock.take 3)).state.blocksByHash.get 1 =
      some (mainBlock 0) := by decide +kernel
  have hmain : (Run.run step (launch twoBranches.genesis) (finalizeForkBlock.take 3)).state.blocksByHash.get 2 =
      some (mainBlock 1) := by decide +kernel
  have hside : (Run.run step (launch twoBranches.genesis) (finalizeForkBlock.take 3)).state.blocksByHash.get 1001 =
      some (sideBlock 1) := by decide +kernel
  have hgenesis : (Run.run step (launch twoBranches.genesis)
      (finalizeForkBlock.take 3)).state.canonicalHashesByNumber.get 0 = some 1 := by decide +kernel
  cases hmain.symm.trans hf
  have hmem := FMap.mem_keys_of_get hb
  change h ∈ (Run.run step (launch twoBranches.genesis) (finalizeForkBlock.take 3)).state.blocksByHash.keys at hmem
  rw [hkeys] at hmem
  simp only [Finset.mem_insert, Finset.mem_singleton] at hmem
  -- both blocks at height 1 stand on the canonical genesis
  rcases hmem with rfl | rfl | rfl
  · cases hroot.symm.trans hb
    exact absurd hn (by decide)
  · cases hmain.symm.trans hb
    exact Or.inr ⟨0, rfl, hgenesis⟩
  · cases hside.symm.trans hb
    exact Or.inr ⟨0, rfl, hgenesis⟩

/-- two blocks on each branch, with the main block at height 2 finalized -/
def finalizeAboveFork : List Op :=
  [.insertBlock (mainBlock 1) none, .insertBlock (mainBlock 2) none, .insertBlock (sideBlock 1) none,
    .insertBlock (sideBlock 2) none, .makeCanonical (mainBlock 2).hash, .removeBlocksOnFinalized (mainBlock 2).hash]

/-- **A side fork that loses its parent.** The side block at height 2 stays stored while its parent is removed. -/
theorem side_fork_loses_parent :
    Run.AllSteps step (ForkOpOk twoBranches) (launch twoBranches.genesis) finalizeAboveFork ∧
      ¬ (Run.run step (launch twoBranches.genesis) finalizeAboveFork).state.Connected := by
  constructor
  · exact ⟨⟨mainBlock_knows (by omega), mainBlock 0, by decide +kernel, rfl⟩,
      ⟨mainBlock_knows (by omega), mainBlock 1, by decide +kernel, rfl⟩,
      ⟨sideBlock_knows.1, mainBlock 0, by decide +kernel, rfl⟩,
      ⟨sideBlock_knows.2, sideBlock 1, by decide +kernel, rfl⟩, trivial,
      ChainState.isHashCanonical_iff.2 ⟨2, by decide +kernel⟩, trivial⟩
  · intro hconn
    have hstored : (Run.run step (launch twoBranches.genesis) finalizeAboveFork).state.blocksByHash.get
        (sideBlock 2).hash = some (sideBlock 2) := by decide +kernel
    have hparent : (Run.run step (launch twoBranches.genesis) finalizeAboveFork).state.blocksByHash.get
        (sideBlock 2).parentHash = none := by decide +kernel
    have hself : (Run.run step (launch twoBranches.genesis) finalizeAboveFork).state.canonicalHashesByNumber.get 2 =
        some (mainBlock 2).hash := by decide +kernel
    have hbelow : (Run.run step (launch twoBranches.genesis) finalizeAboveFork).state.canonicalHashesByNumber.get 1 =
        some (mainBlock 1).hash := by decide +kernel
    obtain ⟨a, x, hanc, hx, hanchor⟩ := hconn _ _ hstored
    rcases Relation.ReflTransGen.cases_head hanc with rfl | ⟨p, ⟨b, hb, rfl⟩, hrest⟩
    · cases hstored.symm.trans hx
      rcases hanchor with h | ⟨n, hn, h⟩
      · exact absurd (hself.symm.trans h) (by decide +kernel)
      · obtain rfl : n = 1 := Nat.succ_injective hn.symm
        exact absurd (hbelow.symm.trans h) (by decide +kernel)
    · cases hstored.symm.trans hb
      obtain ⟨y, hy⟩ := StoredAnc.stored hrest hx
      exact absurd (hparent.symm.trans hy) (by simp)

end Chain

end Ress
