/-
When a stored block becomes canonical.

`on_new_head` walks back from the new head and from the canonical head through stored blocks, and finds no chain where
one of the walks ends before they meet. It finds one whenever they do meet (`onNewHead_found`).

The second part follows one block over a stretch of work: it is not stored yet (`Waiting`), stored while the head is
still the old one (`Pending`), or it has been made canonical (`Landed`).
-/
import Ress.Tree.CanonicalUpdate

namespace Ress

namespace ChainState

/-- following parents through stored blocks leads from both hashes to one block -/
def Meets (s : ChainState) (a b : B256) : Prop := ∃ f, s.StoredAnc a f ∧ s.StoredAnc b f

/-- the state once these blocks have been stored, in order -/
def storing (s : ChainState) (blocks : List Block) : ChainState := blocks.foldl (fun s b => s.insertBlock b none) s

variable {W : World} {s s' : ChainState}

theorem storing_concat (s : ChainState) (blocks : List Block) (b : Block) :
    s.storing (blocks ++ [b]) = (s.storing blocks).insertBlock b none := by
  simp only [storing, List.foldl_append, List.foldl_cons, List.foldl_nil]

theorem StoredAnc.lift (hlink : ∀ d p, s.StoredLink d p → s'.StoredLink d p) {d a : B256} (h : s.StoredAnc d a) :
    s'.StoredAnc d a :=
  Relation.ReflTransGen.mono hlink d a h

theorem Meets.lift (hlink : ∀ d p, s.StoredLink d p → s'.StoredLink d p) {a b : B256} (h : s.Meets a b) :
    s'.Meets a b := by
  obtain ⟨f, ha, hb⟩ := h
  exact ⟨f, ha.lift hlink, hb.lift hlink⟩

theorem StoredLink.of_blocks (hblocks : s'.blocksByHash = s.blocksByHash) {d p : B256} (h : s.StoredLink d p) :
    s'.StoredLink d p := by
  obtain ⟨b, hb, hp⟩ := h
  exact ⟨b, by rw [hblocks]; exact hb, hp⟩

theorem StoredLink.insertBlock {b : Block} {w : Option (List Bytes)} (hnew : ¬ s.Stored b.hash) {d p : B256}
    (h : s.StoredLink d p) : (s.insertBlock b w).StoredLink d p := by
  obtain ⟨x, hx, hp⟩ := h
  refine ⟨x, ?_, hp⟩
  have hne : b.hash ≠ d := by
    rintro rfl
    exact hnew ⟨x, hx⟩
  exact (FMap.get_set_ne _ _ hne.symm).trans hx

/-! ## The walks meet -/

/-- an ancestor at a lower height is an ancestor of the parent -/
theorem StoredAnc.parent (hl : s.Linked W) {a f : B256} {n k : ℕ} (h : s.StoredAnc a f)
    (hn : W.HasNumber a (n + 1)) (hf : W.HasNumber f k) (hlt : k < n + 1) :
    ∃ x, s.sealedHeader a = some x ∧ W.HasNumber x.parentHash n ∧ s.StoredAnc x.parentHash f := by
  rcases Relation.ReflTransGen.cases_head h with rfl | ⟨p, ⟨b, hb, rfl⟩, hrest⟩
  · have := hn.unique hf
    omega
  · have hx := sealedHeader_some.2 ⟨b, hb, rfl⟩
    exact ⟨_, hx, (not_genesis_of_pos hn hl hx).2, hrest⟩

/-- the walk down to a height above an ancestor's reaches it -/
theorem walkBack_reaches (hl : s.Linked W) {floor k : ℕ} {f : B256} (hf : W.HasNumber f k)
    (hle : k ≤ floor) (steps : ℕ) {hash : B256} (chain : List SealedHeader) (hn : W.HasNumber hash (floor + steps))
    (hanc : s.StoredAnc hash f) :
    ∃ q chain', s.walkBack steps hash chain = some (q, chain') ∧ W.HasNumber q floor ∧ s.StoredAnc q f := by
  induction steps generalizing hash chain with
  | zero => exact ⟨hash, chain, rfl, hn, hanc⟩
  | succ steps ih =>
    obtain ⟨x, hx, hpn, hrest⟩ := hanc.parent (n := floor + steps) hl hn hf (by omega)
    simp only [walkBack, hx]
    exact ih _ hpn hrest

/-- from one height, two chains with a common block are walked to a fork -/
theorem walkToFork_reaches (hk : s.Known W) (hl : s.Linked W) {k : ℕ} {f : B256} (hf : W.HasNumber f k)
    {fuel n : ℕ} {a b : B256} (old new : List SealedHeader) (ha : W.HasNumber a n) (hb : W.HasNumber b n)
    (hanc : s.StoredAnc a f) (hanc' : s.StoredAnc b f) (hfuel : (below s.blocksByHash (n + 1)).card < fuel) :
    (s.walkToFork fuel a b old new).isSome = true := by
  induction fuel generalizing n a b old new with
  | zero => exact absurd hfuel (Nat.not_lt_zero _)
  | succ fuel ih =>
    unfold walkToFork
    split_ifs with hab
    · rfl
    · have hlow : k < n := by
        -- at the height of the common block both are that block
        by_contra hge
        have hfa := StoredAnc.anc hk hl hanc hf
        have hfb := StoredAnc.anc hk hl hanc' hf
        have hle := Ancestry.num_le World.link_num hfa
        rw [hf.num_eq, ha.num_eq] at hle
        have hsame : k = n := by omega
        have heqa := Ancestry.eq_of_num World.link_num hfa (by rw [hf.num_eq, ha.num_eq, hsame])
        have heqb := Ancestry.eq_of_num World.link_num hfb (by rw [hf.num_eq, hb.num_eq, hsame])
        exact hab (heqa.symm.trans heqb)
      obtain ⟨n, rfl⟩ : ∃ m, n = m + 1 := ⟨n - 1, by omega⟩
      obtain ⟨x, hx, hxn, hxf⟩ := hanc.parent hl ha hf hlow
      obtain ⟨y, hy, hyn, hyf⟩ := hanc'.parent hl hb hf hlow
      simp only [hx, hy]
      refine ih _ _ hxn hyn hxf hyf ?_
      -- one stored block is behind
      obtain ⟨blk, hblk, rfl⟩ := sealedHeader_some.1 hx
      obtain ⟨hbh, hbk⟩ := hk _ blk hblk
      have hnum : blk.number = n + 1 := (hbh ▸ hbk.hasNumber : W.HasNumber a blk.number).unique ha
      have hless := card_below_lt hblk (m := n + 1) hnum.ge
      rw [hnum] at hless
      omega

/-- a block that no header is known of is reached through genesis only -/
theorem StoredAnc.through_genesis (hl : s.Linked W) {a f : B256} {n : ℕ} (h : s.StoredAnc a f)
    (hn : W.HasNumber a n) (hf : ∀ k, ¬ W.HasNumber f k) : s.StoredAnc a W.genesis.hash := by
  rcases Relation.ReflTransGen.cases_tail h with rfl | ⟨m, ham, b, hb, rfl⟩
  · exact absurd hn (hf n)
  · rcases hl m b hb with rfl | hlink
    · exact ham
    · obtain ⟨x, p, -, hp, -, -⟩ := hlink
      exact absurd ⟨p, hp, rfl⟩ (hf p.number)

/-- two chains that meet, meet in a block -/
theorem Meets.exists_number (hl : s.Linked W) {a b : B256} {n m : ℕ} (h : s.Meets a b)
    (ha : W.HasNumber a n) (hb : W.HasNumber b m) :
    ∃ f k, W.HasNumber f k ∧ s.StoredAnc a f ∧ s.StoredAnc b f := by
  obtain ⟨f, hfa, hfb⟩ := h
  by_cases hf : ∃ k, W.HasNumber f k
  · obtain ⟨k, hk'⟩ := hf
    exact ⟨f, k, hk', hfa, hfb⟩
  · rw [not_exists] at hf
    exact ⟨_, 0, ⟨_, W.genesis_known, W.genesis_number⟩, StoredAnc.through_genesis hl hfa ha hf,
      StoredAnc.through_genesis hl hfb hb hf⟩

/-- a block whose parent is stored is not genesis -/
theorem Linked.link_of_stored (hk : s.Known W) (hl : s.Linked W) {h : B256} {b : Block}
    (hb : s.blocksByHash.get h = some b) (hp : s.Stored b.parentHash) : W.Link h b.parentHash := by
  obtain ⟨p, hp⟩ := hp
  have hnum : b.number = p.number + 1 := Linked.parent_number hk hl hb hp
  obtain ⟨hbh, hbk⟩ := hk _ _ hb
  have hbn : W.HasNumber h (p.number + 1) := hnum ▸ hbh ▸ hbk.hasNumber
  exact (not_genesis_of_pos hbn hl (sealedHeader_some.2 ⟨b, hb, rfl⟩)).1

/-- **Where the chains meet, `on_new_head` finds the update**, whether or not the block they meet in is stored. -/
theorem onNewHead_found (hk : s.Known W) (hl : s.Linked W) {canonicalHead : BlockNumHash} {newHead : B256} {b : Block}
    (hb : s.blocksByHash.get newHead = some b) (hlink : W.Link newHead b.parentHash)
    (hhead : W.HasNumber canonicalHead.hash canonicalHead.number) (hmeets : s.Meets newHead canonicalHead.hash) :
    (s.onNewHead canonicalHead newHead).isSome = true := by
  obtain ⟨hbh, hbk⟩ := hk _ _ hb
  obtain ⟨n, hpn, hnum⟩ : ∃ n, W.HasNumber b.parentHash n ∧ b.number = n + 1 := by
    obtain ⟨x, p, hx, hp, -, hnum⟩ := hlink
    exact ⟨p.number, ⟨p, hp, rfl⟩, (hbh ▸ hbk.hasNumber : W.HasNumber newHead b.number).unique ⟨x, hx, hnum⟩⟩
  -- the new head's chain and the canonical chain meet at the parent or below
  have hparent : s.Meets b.parentHash canonicalHead.hash := by
    obtain ⟨f, hleft, hright⟩ := hmeets
    rcases Relation.ReflTransGen.cases_head hleft with rfl | ⟨q, ⟨b', hb', rfl⟩, hrest⟩
    · exact ⟨b.parentHash, Relation.ReflTransGen.refl, Relation.ReflTransGen.tail hright ⟨b, hb, rfl⟩⟩
    · rw [hb] at hb'
      cases hb'
      exact ⟨f, hrest, hright⟩
  obtain ⟨f, k, hf, hleft, hright⟩ := hparent.exists_number hl hpn hhead
  have hlel := Ancestry.num_le World.link_num (StoredAnc.anc hk hl hleft hf)
  have hler := Ancestry.num_le World.link_num (StoredAnc.anc hk hl hright hf)
  rw [hf.num_eq, hpn.num_eq] at hlel
  rw [hf.num_eq, hhead.num_eq] at hler
  have hbelow : k ≤ min n canonicalHead.number := le_min hlel hler
  obtain ⟨cur, new, hw1, hcurn, hcurf⟩ := walkBack_reaches hl hf hbelow
    (n - canonicalHead.number) [] (by rwa [show min n canonicalHead.number +
      (n - canonicalHead.number) = n by omega]) hleft
  obtain ⟨old, oldChain, hw2, holdn, holdf⟩ := walkBack_reaches hl hf hbelow
    (canonicalHead.number - min n canonicalHead.number) [] (by
      rwa [show min n canonicalHead.number + (canonicalHead.number - min n canonicalHead.number) =
        canonicalHead.number by omega]) hright
  have hx := sealedHeader_some.2 ⟨b, hb, rfl⟩
  have hpred : b.number - 1 = n := by omega
  unfold onNewHead
  simp only [hx, SealedHeader.parentNumHash, hpred, hw1]
  split_ifs with hcur
  · rfl
  · simp only [hw2]
    have hfuel : (below s.blocksByHash (min n canonicalHead.number + 1)).card <
        s.blocksByHash.keys.card + 1 :=
      Nat.lt_succ_of_le (Finset.card_le_card (Finset.filter_subset _ _))
    have hw3 := walkToFork_reaches hk hl hf oldChain new holdn hcurn holdf hcurf hfuel
    cases hr : s.walkToFork (s.blocksByHash.keys.card + 1) old cur oldChain new with
    | none =>
      rw [hr] at hw3
      cases hw3
    | some chains => rfl

/-- **When `on_new_head` finds an update**: the head is stored, is not genesis, and its chain meets the canonical chain
in the store. -/
theorem onNewHead_isSome_iff (hk : s.Known W) (hl : s.Linked W) {canonicalHead : BlockNumHash} {newHead : B256}
    (hhead : W.HasNumber canonicalHead.hash canonicalHead.number) :
    (s.onNewHead canonicalHead newHead).isSome = true ↔
      s.Stored newHead ∧ newHead ≠ W.genesis.hash ∧ s.Meets newHead canonicalHead.hash := by
  constructor
  · intro h
    obtain ⟨update, hu⟩ := Option.isSome_iff_exists.1 h
    obtain ⟨htip, hnew, hold⟩ := onNewHead_stored hu
    obtain ⟨fork, hoseg, hnseg⟩ := onNewHead_segments hk hl hhead hu
    obtain ⟨hlink, -⟩ := onNewHead_link hk hl hhead hu htip
    exact ⟨sealedHeader_isSome.1 (by rw [htip]; rfl), hlink.ne_genesis, fork, (hnseg.storedAnc hk hnew).1,
      (hoseg.storedAnc hk hold).1⟩
  · rintro ⟨⟨b, hb⟩, hgen, hmeets⟩
    exact onNewHead_found hk hl hb ((hl _ b hb).resolve_left hgen) hhead hmeets

end ChainState

namespace Chain

open ChainState (Meets)

variable {W : World} {c₀ c : Chain} {h : B256} {stored : List Block} {b : Block}

/-! ## One block, from the store to the head -/

/-- since `c₀` these blocks have been stored, and heads made canonical -/
structure Since (W : World) (c₀ : Chain) (stored : List Block) (c : Chain) : Prop extends Wf W c where
  linked : c.state.Linked W
  blocks : c.state.blocksByHash = (c₀.state.storing stored).blocksByHash

/-- `h` is not stored, and the head is still that of `c₀` -/
structure Waiting (c₀ : Chain) (h : B256) (c : Chain) : Prop where
  head : c.head = c₀.head
  notStored : ¬ c.state.Stored h

/-- `h` has been stored, and the head is still that of `c₀` -/
structure Pending (c₀ : Chain) (h : B256) (stored : List Block) (c : Chain) : Prop where
  head : c.head = c₀.head
  inserted : ∃ pre b post, stored = pre ++ b :: post ∧ b.hash = h ∧ c.state.blocksByHash.get h = some b ∧
    c.state.Stored b.parentHash ∧ ∀ d p, (c₀.state.storing (pre ++ [b])).StoredLink d p → c.state.StoredLink d p

/-- `h` has been stored, and is the head if its chain met the canonical chain when it was -/
def Landed (c₀ : Chain) (h : B256) (stored : List Block) (c : Chain) : Prop :=
  ∃ pre b post, stored = pre ++ b :: post ∧ b.hash = h ∧
    ((c₀.state.storing (pre ++ [b])).Meets h c₀.head.hash → c.head.hash = h)

inductive Stage where
  | waiting
  | pending
  | landed
deriving DecidableEq

/-- how far the block has come -/
def Stage.At (c₀ : Chain) (h : B256) (stored : List Block) (c : Chain) : Stage → Prop
  | .waiting => Waiting c₀ h c
  | .pending => Pending c₀ h stored c
  | .landed => Landed c₀ h stored c

/-- the stage once the block has been made canonical -/
def Stage.made : Stage → Stage
  | .waiting => .waiting
  | .pending => .landed
  | .landed => .landed

theorem Since.start (hwf : Wf W c) (hl : c.state.Linked W) : Since W c [] c := ⟨hwf, hl, rfl⟩

theorem Since.insertBlock (hs : Since W c₀ stored c) (hb : Child W c.state b) (w : Option (List Bytes)) :
    Since W c₀ (stored ++ [b]) { c with state := c.state.insertBlock b w } := by
  refine ⟨⟨hs.state.insertBlock hb.known, hs.head⟩, fun k x hx => hs.linked.set (hb.link hs.state) hx, ?_⟩
  · rw [ChainState.storing_concat]
    simp only [ChainState.insertBlock, hs.blocks]

theorem makeCanonical_blocks (c : Chain) (target : B256) :
    (c.makeCanonical target).state.blocksByHash = c.state.blocksByHash := by
  unfold Chain.makeCanonical
  cases c.state.onNewHead c.head target with
  | none => rfl
  | some update => exact onCanonicalChainUpdate_blocks c update

theorem Since.makeCanonical (hs : Since W c₀ stored c) (target : B256) : Since W c₀ stored (c.makeCanonical target) := by
  refine ⟨hs.toWf.makeCanonical target, ?_, (makeCanonical_blocks c target).trans hs.blocks⟩
  intro k x hg
  rw [makeCanonical_blocks] at hg
  exact hs.linked k x hg

/-- another block is stored -/
theorem Waiting.insertBlock (hw : Waiting c₀ h c) (hne : b.hash ≠ h) (w : Option (List Bytes)) :
    Waiting c₀ h { c with state := c.state.insertBlock b w } := by
  refine ⟨hw.head, fun hstored => ?_⟩
  rcases ChainState.stored_insertBlock.1 hstored with heq | hstored
  · exact hne heq.symm
  · exact hw.notStored hstored

/-- the block itself is stored -/
theorem Waiting.lands (hw : Waiting c₀ h c) (hs : Since W c₀ stored c) (hb : Child W c.state b) (hh : b.hash = h)
    (w : Option (List Bytes)) : Pending c₀ h (stored ++ [b]) { c with state := c.state.insertBlock b w } := by
  have hsince := hs.insertBlock hb w
  obtain ⟨p, hp, -⟩ := hb.parent
  refine ⟨hw.head, stored, b, [], rfl, hh, ?_, ?_, ?_⟩
  · rw [← hh]
    exact FMap.get_set_self _ _ _
  · exact ChainState.stored_insertBlock.2 (Or.inr ⟨p, hp⟩)
  · exact fun d q hlink => hlink.of_blocks hsince.blocks

theorem Pending.insertBlock (hp : Pending c₀ h stored c) (hnew : ¬ c.state.Stored b.hash) (w : Option (List Bytes)) :
    Pending c₀ h (stored ++ [b]) { c with state := c.state.insertBlock b w } := by
  obtain ⟨pre, x, post, rfl, hxh, hx, hparent, hlink⟩ := hp.inserted
  refine ⟨hp.head, pre, x, post ++ [b], by simp, hxh, ?_, ?_, ?_⟩
  · have hne : b.hash ≠ h := by
      rintro rfl
      exact hnew ⟨x, hx⟩
    exact (FMap.get_set_ne _ _ hne.symm).trans hx
  · exact ChainState.stored_insertBlock.2 (Or.inr hparent)
  · exact fun d p hd => (hlink d p hd).insertBlock hnew

theorem Landed.insertBlock (hl : Landed c₀ h stored c) (w : Option (List Bytes)) :
    Landed c₀ h (stored ++ [b]) { c with state := c.state.insertBlock b w } := by
  obtain ⟨pre, x, post, rfl, hxh, hhead⟩ := hl
  exact ⟨pre, x, post ++ [b], by simp, hxh, hhead⟩

/-- a block that is not stored cannot become the head -/
theorem Waiting.makeCanonical (hw : Waiting c₀ h c) : Waiting c₀ h (c.makeCanonical h) := by
  have hnone : c.state.onNewHead c.head h = none := by
    unfold ChainState.onNewHead
    rw [ChainState.sealedHeader_none.2 hw.notStored]
  unfold Chain.makeCanonical
  rw [hnone]
  exact hw

/-- the head after a block has been made canonical is that block, or there was no update -/
theorem Since.makeCanonical_head (hs : Since W c₀ stored c) (target : B256) :
    (c.makeCanonical target).head.hash = target ∨ c.state.onNewHead c.head target = none := by
  unfold Chain.makeCanonical
  cases hu : c.state.onNewHead c.head target with
  | none => exact Or.inr rfl
  | some update =>
    obtain ⟨htip, -, -⟩ := ChainState.onNewHead_stored hu
    exact Or.inl (hs.state.header htip).1

/-- **The stored block is made canonical**: its chain meets the canonical chain now, if it did when it was stored. -/
theorem Pending.makeCanonical (hp : Pending c₀ h stored c) (hs : Since W c₀ stored c) :
    Landed c₀ h stored (c.makeCanonical h) := by
  obtain ⟨pre, b, post, hstored, hbh, hb, hparent, hlink⟩ := hp.inserted
  refine ⟨pre, b, post, hstored, hbh, fun hmeets => ?_⟩
  have hmeets' : c.state.Meets h c.head.hash := hp.head ▸ hmeets.lift hlink
  have hlink := hs.linked.link_of_stored hs.state.known hb hparent
  have hsome := ChainState.onNewHead_found hs.state.known hs.linked hb hlink hs.head hmeets'
  refine (hs.makeCanonical_head h).resolve_right fun hnone => ?_
  rw [hnone] at hsome
  cases hsome

theorem Landed.makeCanonical (hl : Landed c₀ h stored c) (hs : Since W c₀ stored c) :
    Landed c₀ h stored (c.makeCanonical h) := by
  obtain ⟨pre, b, post, hstored, hbh, hhead⟩ := hl
  refine ⟨pre, b, post, hstored, hbh, fun hmeets => ?_⟩
  rcases hs.makeCanonical_head h with heq | hnone
  · exact heq
  · unfold Chain.makeCanonical
    rw [hnone]
    exact hhead hmeets

/-- **A block is stored**: the stage stays, unless the block is the one that is waited for. -/
theorem Stage.At.insertBlock {s : Stage} (hat : s.At c₀ h stored c) (hs : Since W c₀ stored c) (hb : Child W c.state b)
    (hnew : ¬ c.state.Stored b.hash) (w : Option (List Bytes)) :
    ∃ s' : Stage, s'.At c₀ h (stored ++ [b]) { c with state := c.state.insertBlock b w } ∧
      (s' = s ∨ s = .waiting ∧ s' = .pending ∧ b.hash = h) := by
  cases s with
  | waiting =>
    by_cases hh : b.hash = h
    · exact ⟨.pending, Waiting.lands hat hs hb hh w, Or.inr ⟨rfl, rfl, hh⟩⟩
    · exact ⟨.waiting, Waiting.insertBlock hat hh w, Or.inl rfl⟩
  | pending => exact ⟨.pending, Pending.insertBlock hat hnew w, Or.inl rfl⟩
  | landed => exact ⟨.landed, Landed.insertBlock hat w, Or.inl rfl⟩

theorem Stage.At.makeCanonical {s : Stage} (hat : s.At c₀ h stored c) (hs : Since W c₀ stored c) :
    s.made.At c₀ h stored (c.makeCanonical h) := by
  cases s with
  | waiting => exact Waiting.makeCanonical hat
  | pending => exact Pending.makeCanonical hat hs
  | landed => exact Landed.makeCanonical hat hs

end Chain

end Ress
