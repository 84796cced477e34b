/-
The links of the buffered blocks, over every sequence of the buffer's operations.

`removeChildren` forgets the links of a parent and then takes only those of its children that are ready. So the parent
index stays exact exactly as long as every descendant of the block that is asked for is ready (`links_exact_iff`); a
child that waits for its witness loses its link (`link_lost`).

- `Leaves`: what an operation that takes blocks leaves behind: every other block, with its witness.
- `LinksOn`: the parent index is exact for a set of parents. Each loop takes a parent out of the set and puts it back
  once none of its children is buffered.
-/
import Ress.Tree.BufferIndex

namespace Ress

open GroupIndex (Indexes group)

namespace BlockBuffer

variable {β β' β'' : BlockBuffer}

/-! ## What is not taken -/

/-- an operation that takes the blocks of a list and leaves the others with their witnesses -/
structure Leaves (β β' : BlockBuffer) (l : List (Block × ExecutionWitness)) : Prop extends Shrinks β β' where
  kept : ∀ h b, β'.blocks.get h = some b → β'.witnesses.get h = β.witnesses.get h ∧ β'.missing h = β.missing h
  left : ∀ h b, β.blocks.get h = some b →
    β'.blocks.get h = some b ∨ ∃ x ∈ l, x.1 = b ∧ β.witnesses.get h = some x.2 ∧ β.missing h = ∅

theorem Leaves.ready {l : List (Block × ExecutionWitness)} (h : Leaves β β' l) {k : B256} {b : Block}
    (hb : β'.blocks.get k = some b) (hr : β.Ready k) : β'.Ready k := by
  obtain ⟨hw, hm⟩ := h.kept k b hb
  exact ⟨by rw [hw]; exact hr.1, by rw [hm]; exact hr.2⟩

theorem Leaves.append {l l' : List (Block × ExecutionWitness)} (h : Leaves β β' l) (h' : Leaves β' β'' l') :
    Leaves β β'' (l ++ l') := by
  refine ⟨h.toShrinks.trans h'.toShrinks, ?_, ?_⟩
  · intro k b hb
    obtain ⟨hw', hm'⟩ := h'.kept k b hb
    obtain ⟨hw, hm⟩ := h.kept k b (h'.blocks k b hb)
    exact ⟨hw'.trans hw, hm'.trans hm⟩
  · intro k b hb
    rcases h.left k b hb with hb' | ⟨x, hx, hxb, hxw⟩
    · rcases h'.left k b hb' with hb'' | ⟨x, hx, hxb, hxw, hxm⟩
      · exact Or.inl hb''
      · obtain ⟨hw, hm⟩ := h.kept k b hb'
        exact Or.inr ⟨x, List.mem_append_right _ hx, hxb, by rw [← hw]; exact hxw, by rw [← hm]; exact hxm⟩
    · exact Or.inr ⟨x, List.mem_append_left _ hx, hxb, hxw⟩

/-- forgetting the links of a parent takes nothing -/
theorem leaves_del (β : BlockBuffer) (p : B256) : Leaves β { β with parentToChild := β.parentToChild.del p } [] :=
  ⟨del_entry_shrinks β p, fun _ _ _ => ⟨rfl, rfl⟩, fun _ _ h => Or.inl h⟩

theorem Leaves.rfl' (β : BlockBuffer) : Leaves β β [] :=
  ⟨Shrinks.rfl' β, fun _ _ _ => ⟨rfl, rfl⟩, fun _ _ h => Or.inl h⟩

/-- a witness stays unless it is the one taken -/
theorem removeWitness_frame (β : BlockBuffer) (hash k : B256) (h : k ≠ hash ∨ (β.removeWitness hash).1 = none) :
    (β.removeWitness hash).2.witnesses.get k = β.witnesses.get k ∧
      (β.removeWitness hash).2.missing k = β.missing k := by
  simp only [removeWitness] at h ⊢
  split_ifs at h ⊢ with hm
  · by_cases hk : k = hash
    · subst hk
      simp only [ne_eq, not_true, false_or] at h
      exact ⟨by rw [FMap.get_del_self, h], by rw [hm]; simp [missing]⟩
    · simp only [missing]
      rw [FMap.get_del_ne _ hk, FMap.get_del_ne _ hk]
      exact ⟨rfl, rfl⟩
  · exact ⟨rfl, rfl⟩

theorem removeBlock_leaves (β : BlockBuffer) (hash : B256) :
    Leaves β (β.removeBlock hash).2 (β.removeBlock hash).1.toList := by
  refine ⟨(removeBlock_removes β hash).toShrinks, ?_, ?_⟩
  · intro k b hb
    have hframe := removeWitness_frame β hash k
    simp only [removeBlock] at hb ⊢
    cases hg : β.blocks.get hash with
    | none => exact ⟨rfl, rfl⟩
    | some b' =>
      rw [hg] at hb
      cases hw : β.removeWitness hash with
      | mk witness β₁ =>
        rw [hw] at hb hframe
        cases witness with
        | none => exact hframe (Or.inr rfl)
        | some w => exact hframe (Or.inl (FMap.get_del_some hb).1)
  · intro k b hb
    have hblocks := (removeWitness_removes β hash).2.2
    simp only [removeBlock]
    cases hg : β.blocks.get hash with
    | none => exact Or.inl hb
    | some b' =>
      cases hw : β.removeWitness hash with
      | mk witness β₁ =>
        rw [hw] at hblocks
        simp only at hblocks ⊢
        cases witness with
        | none => exact Or.inl (by rw [hblocks]; exact hb)
        | some w =>
          obtain ⟨hget, hm⟩ := removeWitness_some (show (β.removeWitness hash).1 = some w by rw [hw])
          simp only [removeFromEarliestBlocks, removeFromParent, lruRemove, Option.toList_some, hblocks]
          by_cases hk : k = hash
          · subst hk
            rw [hg] at hb
            cases hb
            exact Or.inr ⟨_, List.mem_singleton_self _, rfl, hget, hm⟩
          · exact Or.inl (by rw [FMap.get_del_ne _ hk]; exact hb)

theorem removeBlocks_leaves (β : BlockBuffer) (hashes : List B256) :
    Leaves β (β.removeBlocks hashes).2 (β.removeBlocks hashes).1 := by
  induction hashes generalizing β with
  | nil => exact Leaves.rfl' β
  | cons hash hashes ih =>
    rw [removeBlocks_cons]
    exact (removeBlock_leaves β hash).append (ih _)

theorem removeChildren_leaves (ord : Enumeration B256) (fuel : ℕ) (work : List B256) (β : BlockBuffer) :
    Leaves β (removeChildren ord fuel work β).2 (removeChildren ord fuel work β).1 := by
  induction fuel generalizing work β with
  | zero => exact Leaves.rfl' β
  | succ fuel ih =>
    cases work with
    | nil => exact Leaves.rfl' β
    | cons p work =>
      simp only [removeChildren]
      cases hg : β.parentToChild.get p with
      | none => exact ih work β
      | some cs => exact ((leaves_del β p).append (removeBlocks_leaves _ (ord.list cs))).append (ih _ _)

/-- **What `remove_block_with_children` leaves.** A block that is not in the list stays, with its witness. -/
theorem removeBlockWithChildren_leaves (ord : Enumeration B256) (β : BlockBuffer) (p : B256) :
    Leaves β (removeBlockWithChildren ord β p).2 (removeBlockWithChildren ord β p).1 := by
  simp only [removeBlockWithChildren]
  exact (removeBlock_leaves β p).append (removeChildren_leaves ord _ _ _)

/-! ## Links -/

/-- buffered blocks are stored under their hash, and the parent index is exact for the parents in `S` -/
structure LinksOn (S : Set B256) (β : BlockBuffer) : Prop where
  keyed : β.Keyed
  links : Indexes (fun b : Block => b.parentHash) S β.blocks β.parentToChild

/-- `parentToChild` is exactly the child relation of the buffered blocks -/
def LinksExact (β : BlockBuffer) : Prop :=
  (∀ p h, (∃ s, β.parentToChild.get p = some s ∧ h ∈ s) ↔ ∃ b, β.blocks.get h = some b ∧ b.parentHash = p) ∧
    ∀ p, β.parentToChild.get p ≠ some ∅

/-- a buffered descendant of a block -/
inductive Under (β : BlockBuffer) (p : B256) : B256 → Prop
  | child {h : B256} {b : Block} (hb : β.blocks.get h = some b) (hp : b.parentHash = p) : Under β p h
  | deeper {h : B256} {b : Block} (hb : β.blocks.get h = some b) (hu : Under β p b.parentHash) : Under β p h

/-- when the descendants of a block are taken out, every one of them is ready -/
def FindsReady (β : BlockBuffer) : BufferOp → Prop
  | .removeBlockWithChildren _ parentHash => ∀ h, Under β parentHash h → β.Ready h
  | _ => True

variable {L : Set B256}

theorem mem_children_iff (p h : B256) : h ∈ group β.parentToChild p ↔ ∃ s, β.parentToChild.get p = some s ∧ h ∈ s := by
  simp only [group]
  cases β.parentToChild.get p <;> simp

theorem LinksOn.exact_iff (hk : β.Keyed) : β.LinksExact ↔ LinksOn Set.univ β := by
  constructor
  · rintro ⟨hexact, hempty⟩
    refine ⟨hk, ⟨?_, fun p hp => absurd (Set.mem_univ p) hp, hempty⟩⟩
    intro p _ h
    rw [mem_children_iff]
    exact hexact p h
  · intro h
    refine ⟨?_, h.links.noEmpty⟩
    intro p k
    rw [← mem_children_iff]
    exact h.links.exact p (Set.mem_univ p) k

theorem LinksOn.linkSound (h : LinksOn Set.univ β) : β.LinkSound := by
  intro p k b hb hk
  obtain ⟨b', hb', hp⟩ := (h.links.exact p (Set.mem_univ p) k).1 hk
  cases hb.symm.trans hb'
  exact hp

theorem Under.mono (hblocks : ∀ h b, β'.blocks.get h = some b → β.blocks.get h = some b) {p h : B256}
    (hu : Under β' p h) : Under β p h := by
  induction hu with
  | child hb hp => exact Under.child (hblocks _ _ hb) hp
  | deeper hb _ ih => exact Under.deeper (hblocks _ _ hb) ih

/-- the descendants of a child are descendants -/
theorem Under.of_child {p q h : B256} {b : Block} (hb : β.blocks.get q = some b) (hp : b.parentHash = p)
    (hu : Under β q h) : Under β p h := by
  induction hu with
  | child hb' hq => exact Under.deeper hb' (hq ▸ Under.child hb hp)
  | deeper hb' _ ih => exact Under.deeper hb' ih

/-! ## The lowest ancestor -/

/-- no block is its own descendant, as a block commits to its parent -/
def Acyclic (β : BlockBuffer) : Prop := ∀ h, ¬ Under β h h

/-- following buffered parents from a block ends at `l` -/
inductive Lowest (β : BlockBuffer) : Block → Block → Prop
  | here {b : Block} (hp : β.blocks.get b.parentHash = none) : Lowest β b b
  | up {b p l : Block} (hp : β.blocks.get b.parentHash = some p) (hl : Lowest β p l) : Lowest β b l

theorem Lowest.unique {b l l' : Block} (h : Lowest β b l) (h' : Lowest β b l') : l = l' := by
  induction h with
  | here hp =>
    cases h' with
    | here => rfl
    | up hp' => rw [hp] at hp'; cases hp'
  | up hp _ ih =>
    cases h' with
    | here hp' => rw [hp] at hp'; cases hp'
    | up hp' hl' =>
      rw [hp] at hp'
      cases hp'
      exact ih hl'

theorem Lowest.parent_notBuffered {b l : Block} (h : Lowest β b l) : β.blocks.get l.parentHash = none := by
  induction h with
  | here hp => exact hp
  | up _ _ ih => exact ih

/-- from two blocks with one parent, it ends below one hash -/
theorem Lowest.sibling {b c l : Block} (h : Lowest β b l) (hc : c.parentHash = b.parentHash) :
    ∃ l', Lowest β c l' ∧ l'.parentHash = l.parentHash := by
  cases h with
  | here hp => exact ⟨c, Lowest.here (by rw [hc]; exact hp), hc⟩
  | up hp hl => exact ⟨l, Lowest.up (by rw [hc]; exact hp) hl, rfl⟩

/-- the lowest ancestor of a block is the same in a buffer that differs only in descendants of `p` -/
theorem Lowest.transfer {p : B256} (hk : β.Keyed)
    (hagree : ∀ h, ¬ Under β p h → ¬ Under β' p h → β'.blocks.get h = β.blocks.get h) {b l : Block}
    (hb : β.blocks.get b.hash = some b) (hn : ¬ Under β p b.hash) (hn' : ¬ Under β' p b.hash) (h : Lowest β b l) :
    Lowest β' b l := by
  have habove : ∀ {b : Block}, β.blocks.get b.hash = some b → ¬ Under β p b.hash → ¬ Under β' p b.hash →
      ¬ Under β p b.parentHash ∧ ¬ Under β' p b.parentHash := by
    intro b hb hn hn'
    have hb' : β'.blocks.get b.hash = some b := (hagree b.hash hn hn').trans hb
    exact ⟨fun hu => hn (Under.deeper hb hu), fun hu => hn' (Under.deeper hb' hu)⟩
  induction h with
  | here hp =>
    obtain ⟨h1, h2⟩ := habove hb hn hn'
    exact Lowest.here ((hagree _ h1 h2).trans hp)
  | up hp _ ih =>
    obtain ⟨h1, h2⟩ := habove hb hn hn'
    have hph := hk _ _ hp
    refine Lowest.up ((hagree _ h1 h2).trans hp) (ih ?_ ?_ ?_)
    · rw [hph]
      exact hp
    · rw [hph]
      exact h1
    · rw [hph]
      exact h2

/-- following buffered parents from a block ends at `l` after `n` steps -/
def LowestIn (β : BlockBuffer) : ℕ → Block → Block → Prop
  | 0, b, l => β.blocks.get b.parentHash = none ∧ b = l
  | n + 1, b, l => ∃ p, β.blocks.get b.parentHash = some p ∧ LowestIn β n p l

theorem Lowest.lowestIn {b l : Block} (h : Lowest β b l) : ∃ n, LowestIn β n b l := by
  induction h with
  | here hp => exact ⟨0, hp, rfl⟩
  | up hp _ ih =>
    obtain ⟨n, hn⟩ := ih
    exact ⟨n + 1, _, hp, hn⟩

theorem LowestIn.unique {n m : ℕ} {b l l' : Block} (h : LowestIn β n b l) (h' : LowestIn β m b l') : n = m := by
  induction n generalizing m b with
  | zero =>
    cases m with
    | zero => rfl
    | succ m =>
      obtain ⟨p, hp, -⟩ := h'
      cases h.1.symm.trans hp
  | succ n ih =>
    obtain ⟨p, hp, hn⟩ := h
    cases m with
    | zero => cases h'.1.symm.trans hp
    | succ m =>
      obtain ⟨p', hp', hm⟩ := h'
      cases hp.symm.trans hp'
      rw [ih hn hm]

/-- the blocks above are as many as the steps: none is met twice, as from each it takes fewer steps than from the one
before -/
theorem LowestIn.le_card {n : ℕ} {b l : Block} (h : LowestIn β n b l) : n ≤ β.blocks.keys.card := by
  have hmet : ∀ n b, LowestIn β n b l → ∃ met ⊆ β.blocks.keys, met.card = n ∧
      ∀ k ∈ met, ∃ x m, β.blocks.get k = some x ∧ m < n ∧ LowestIn β m x l := by
    intro n
    induction n with
    | zero => exact fun _ _ => ⟨∅, by simp, rfl, by simp⟩
    | succ n ih =>
      rintro b ⟨p, hp, hn⟩
      obtain ⟨met, hsub, hcard, hfewer⟩ := ih p hn
      have hnew : b.parentHash ∉ met := by
        intro hk
        obtain ⟨x, m, hx, hm, hlow⟩ := hfewer _ hk
        cases hp.symm.trans hx
        exact absurd (hlow.unique hn) (by omega)
      refine ⟨insert b.parentHash met, ?_, by rw [Finset.card_insert_of_notMem hnew, hcard], ?_⟩
      · exact Finset.insert_subset (FMap.mem_keys_of_get hp) hsub
      · intro k hk
        rcases Finset.mem_insert.1 hk with rfl | hk
        · exact ⟨p, n, hp, by omega, hn⟩
        · obtain ⟨x, m, hx, hm, hlow⟩ := hfewer k hk
          exact ⟨x, m, hx, by omega, hlow⟩
  obtain ⟨met, hsub, rfl, -⟩ := hmet n b h
  exact Finset.card_le_card hsub

theorem LowestIn.lowestFrom {n fuel : ℕ} {b l : Block} (h : LowestIn β n b l) (hfuel : n ≤ fuel) :
    BlockBuffer.lowestFrom β.blocks fuel b = l := by
  induction n generalizing fuel b with
  | zero =>
    obtain ⟨hp, rfl⟩ := h
    cases fuel with
    | zero => rfl
    | succ fuel => simp only [BlockBuffer.lowestFrom, hp]
  | succ n ih =>
    obtain ⟨p, hp, hn⟩ := h
    obtain ⟨fuel, rfl⟩ : ∃ k, fuel = k + 1 := ⟨fuel - 1, by omega⟩
    simp only [BlockBuffer.lowestFrom, hp]
    exact ih hn (by omega)

/-- where following the parents ends at all, the loop of `lowest_ancestor` ends there -/
theorem Lowest.lowestAncestor {hash : B256} {b l : Block} (hb : β.blocks.get hash = some b) (h : Lowest β b l) :
    β.lowestAncestor hash = some l := by
  obtain ⟨n, hn⟩ := h.lowestIn
  simp only [BlockBuffer.lowestAncestor, hb, Option.map_some]
  rw [hn.lowestFrom hn.le_card]

/-- a set of the block and descendants of it does not hold the block's parent -/
theorem Acyclic.parent_notMem (hacyclic : β.Acyclic) {b : Block} (hb : β.blocks.get b.hash = some b)
    {visited : Finset B256} (hvisited : ∀ v ∈ visited, v = b.hash ∨ Under β b.hash v) : b.parentHash ∉ visited := by
  intro hmem
  rcases hvisited _ hmem with heq | hu
  · exact hacyclic b.hash (Under.child hb heq)
  · exact hacyclic b.hash (Under.deeper hb hu)

/-- `visited` holds the block and the descendants of it that the walk came from; a step cannot go back into it -/
theorem lowestFrom_lowest (hk : β.Keyed) (hacyclic : β.Acyclic) (fuel : ℕ) (b : Block) (visited : Finset B256)
    (hb : β.blocks.get b.hash = some b) (hvisited : ∀ v ∈ visited, v = b.hash ∨ Under β b.hash v)
    (hsub : visited ⊆ β.blocks.keys) (hfuel : β.blocks.keys.card ≤ visited.card + fuel) :
    Lowest β b (lowestFrom β.blocks fuel b) := by
  induction fuel generalizing b visited with
  | zero =>
    have hall : visited = β.blocks.keys := Finset.eq_of_subset_of_card_le hsub hfuel
    have hfresh := hacyclic.parent_notMem hb hvisited
    rw [hall] at hfresh
    exact Lowest.here (FMap.get_of_notMem_keys hfresh)
  | succ fuel ih =>
    simp only [lowestFrom]
    cases hp : β.blocks.get b.parentHash with
    | none => exact Lowest.here hp
    | some p =>
      have hph : p.hash = b.parentHash := hk _ _ hp
      have hgetp : β.blocks.get p.hash = some p := by rw [hph]; exact hp
      refine Lowest.up hp (ih p (insert p.hash visited) hgetp ?_ ?_ ?_)
      · intro v hv
        rcases Finset.mem_insert.1 hv with rfl | hv
        · exact Or.inl rfl
        · rcases hvisited v hv with rfl | hu
          · exact Or.inr (Under.child hb hph.symm)
          · exact Or.inr (Under.of_child hb hph.symm hu)
      · exact Finset.insert_subset (FMap.mem_keys_of_get hgetp) hsub
      · rw [Finset.card_insert_of_notMem (by rw [hph]; exact hacyclic.parent_notMem hb hvisited)]
        omega

/-- **The lowest ancestor** is where following buffered parents ends. -/
theorem lowestAncestor_lowest (hk : β.Keyed) (hacyclic : β.Acyclic) {h : B256} {b : Block}
    (hb : β.blocks.get h = some b) : ∃ l, β.lowestAncestor h = some l ∧ Lowest β b l := by
  have hgetb : β.blocks.get b.hash = some b := by rw [hk h b hb]; exact hb
  refine ⟨lowestFrom β.blocks β.blocks.keys.card b, by simp only [lowestAncestor, hb, Option.map_some], ?_⟩
  apply lowestFrom_lowest hk hacyclic _ b {b.hash} hgetb
  · intro v hv
    exact Or.inl (Finset.mem_singleton.1 hv)
  · exact Finset.singleton_subset_iff.2 (FMap.mem_keys_of_get hgetb)
  · omega

/-! ## Exact links -/

theorem LinksOn.drops {hash : B256} (h : LinksOn L β) (hd : Drops hash β β') : LinksOn L β' := by
  cases hd with
  | same => exact ⟨h.keyed, h.links⟩
  | gone b hb => exact ⟨fun k b' hb' => h.keyed k b' (FMap.get_del_some hb').2, h.links.remove hb⟩

theorem LinksOn.unlink (h : LinksOn L β) (p : B256) :
    LinksOn (L \ {p}) { β with parentToChild := β.parentToChild.del p } := ⟨h.keyed, h.links.dropKey p⟩

/-- the links are exact again once no child of the forgotten parent is buffered -/
theorem LinksOn.relink {p : B256} (h : LinksOn (Set.univ \ {p}) β)
    (hnone : ∀ k b, β.blocks.get k = some b → b.parentHash ≠ p) : LinksOn Set.univ β := by
  refine ⟨h.keyed, h.links.restore (Set.subset_univ _) ?_⟩
  intro q _ hq k b hb hbq
  have hqp : q = p := by
    by_contra hne
    exact hq ⟨Set.mem_univ q, hne⟩
  exact hnone k b hb (hbq.trans hqp)

/-- an insertion adds a block in front, and drops at most one -/
theorem insertBlock_drops (β : BlockBuffer) (b : Block) :
    ∃ order hash, Drops hash (β.addInFront b order) (β.insertBlock b) := by
  by_cases hroom : b.hash ∈ β.lru.order ∨ β.lru.order.length < β.lru.limit
  · rw [insertBlock_room b hroom]
    exact ⟨_, 0, Drops.same _ _⟩
  · rw [not_or, not_lt] at hroom
    cases hlast : β.lru.order.getLast? with
    | some oldest => exact ⟨_, oldest, (insertBlock_full b hroom.1 hroom.2 hlast).1⟩
    | none =>
      have hcond : b.hash ∉ (β.addBlock b).lru.order ∧ (β.addBlock b).lru.limit ≤ (β.addBlock b).lru.order.length :=
        hroom
      have hnone : (β.addBlock b).lru.order.getLast? = none := hlast
      refine ⟨β.lru.order.dropLast.erase b.hash, 0, ?_⟩
      simp only [insertBlock, insertHashAndGetEvicted]
      rw [if_pos hcond, hnone]
      exact Drops.same _ _

theorem LinksOn.insertBlock (h : LinksOn Set.univ β) {b : Block}
    (hsame : ∀ b', β.blocks.get b.hash = some b' → b'.toSealedHeader = b.toSealedHeader) :
    LinksOn Set.univ (β.insertBlock b) := by
  obtain ⟨order, hash, hdrop⟩ := insertBlock_drops β b
  refine LinksOn.drops ⟨?_, ?_⟩ hdrop
  · intro k b' hb'
    simp only [addInFront, addBlock, FMap.get_set] at hb'
    split_ifs at hb' with hk
    · cases hb'
      exact hk.symm
    · exact h.keyed k b' hb'
  · exact h.links.add b.hash b (Set.mem_univ _) fun b' hb' =>
      congrArg (fun x : SealedHeader => x.parentHash) (hsame b' hb')

/-- a worklist loop that evicts keeps the links exact: the children of a parent go with its links -/
theorem LinksOn.evictChildren (h : LinksOn Set.univ β) (ord : Enumeration B256) (fuel : ℕ) (work : List B256) :
    LinksOn Set.univ (evictChildren ord fuel work β) := by
  induction fuel generalizing work β with
  | zero => exact h
  | succ fuel ih =>
    cases work with
    | nil => exact h
    | cons p work =>
      simp only [BlockBuffer.evictChildren]
      cases hg : β.parentToChild.get p with
      | none => exact ih h work
      | some cs =>
        apply ih
        have hevicted := evictBlocks_keeps (fun β hash hl => LinksOn.drops hl (evictBlock_drops β hash)) (ord.list cs)
          (h.unlink p)
        obtain ⟨hrem, hgone⟩ := evictBlocks_removes (ord.list cs) { β with parentToChild := β.parentToChild.del p }
        apply hevicted.relink
        intro k b hb hp
        have hmem := (h.links.exact p (Set.mem_univ p) k).2 ⟨b, hrem.blocks k b hb, hp⟩
        rw [GroupIndex.group_of_get hg] at hmem
        have hnone := hgone k ((ord.mem cs k).2 hmem)
        rw [hb] at hnone
        cases hnone

theorem LinksOn.evictOldBlocks (h : LinksOn Set.univ β) (ord : Enumeration B256) (n : ℕ) :
    LinksOn Set.univ (evictOldBlocks ord β n) := by
  obtain ⟨earliest, heq, -, -⟩ := popEarliest_spec ord n β.earliestBlocks.keys.card β le_rfl
  simp only [BlockBuffer.evictOldBlocks]
  rw [heq]
  have hpopped : LinksOn Set.univ { β with earliestBlocks := earliest } := ⟨h.keyed, h.links⟩
  have hevicted := evictBlocks_keeps (fun β hash hl => LinksOn.drops hl (evictBlock_drops β hash))
    (popEarliest ord n β.earliestBlocks.keys.card β).1 hpopped
  exact hevicted.evictChildren ord _ _

/-- a worklist loop that takes blocks keeps the links exact if all it meets is ready -/
theorem LinksOn.removeChildren (h : LinksOn Set.univ β) (ord : Enumeration B256) (fuel : ℕ) (work : List B256)
    (hready : ∀ q ∈ work, ∀ k, Under β q k → β.Ready k) : LinksOn Set.univ (removeChildren ord fuel work β).2 := by
  induction fuel generalizing work β with
  | zero => exact h
  | succ fuel ih =>
    cases work with
    | nil => exact h
    | cons p work =>
      simp only [BlockBuffer.removeChildren]
      cases hg : β.parentToChild.get p with
      | none => exact ih h work fun q hq => hready q (List.mem_cons_of_mem _ hq)
      | some cs =>
        have hremoved := removeBlocks_keeps (fun β hash hl => LinksOn.drops hl (removeBlock_drops β hash)) (ord.list cs)
          (h.unlink p)
        have hleaves := (leaves_del β p).append (removeBlocks_leaves _ (ord.list cs))
        obtain ⟨-, -, hnot, -⟩ := removeBlocks_spec (h.unlink p).keyed (ord.list cs)
        have hchild : ∀ c ∈ cs, ∃ b, β.blocks.get c = some b ∧ b.parentHash = p := by
          intro c hc
          rw [← GroupIndex.group_of_get hg] at hc
          exact (h.links.exact p (Set.mem_univ p) c).1 hc
        apply ih
        · apply hremoved.relink
          intro k b hb hp
          have hb' := hleaves.blocks k b hb
          have hmem := (h.links.exact p (Set.mem_univ p) k).2 ⟨b, hb', hp⟩
          rw [GroupIndex.group_of_get hg] at hmem
          have hr := hready p (List.mem_cons_self ..) k (Under.child hb' hp)
          exact hnot k ((ord.mem cs k).2 hmem) ⟨⟨b, hb⟩, hleaves.ready hb hr⟩
        · intro q hq k hu
          -- a descendant of a child, or of the rest of the worklist
          have hr : β.Ready k := by
            have hu' := hu.mono hleaves.blocks
            rcases List.mem_append.1 hq with hq | hq
            · obtain ⟨b, hb, hp⟩ := hchild q ((ord.mem cs q).1 (List.mem_reverse.1 hq))
              exact hready p (List.mem_cons_self ..) k (Under.of_child hb hp hu')
            · exact hready q (List.mem_cons_of_mem _ hq) k hu'
          cases hu with
          | child hb => exact hleaves.ready hb hr
          | deeper hb => exact hleaves.ready hb hr

/-- **Taking a block with its descendants** keeps the links exact exactly when every descendant is ready. -/
theorem LinksOn.removeBlockWithChildren_iff (h : LinksOn Set.univ β) (ord : Enumeration B256) (p : B256) :
    LinksExact (removeBlockWithChildren ord β p).2 ↔ ∀ k, Under β p k → β.Ready k := by
  have hleaves := removeBlockWithChildren_leaves ord β p
  constructor
  · intro hexact k hu
    have hpopped := removeBlockWithChildren_popped ord β p h.keyed h.linkSound
    -- a child of the block, or of one that was taken, has lost its link, so it must have been taken too
    have htaken : ∀ k b, β.blocks.get k = some b →
        (b.parentHash = p ∨ ∃ x ∈ (removeBlockWithChildren ord β p).1, x.1.hash = b.parentHash) →
        β.Ready k ∧ ∃ x ∈ (removeBlockWithChildren ord β p).1, x.1.hash = k := by
      intro k b hb hparent
      rcases hleaves.left k b hb with hb' | ⟨x, hx, rfl, hw, hm⟩
      · obtain ⟨s, hs, -⟩ := (hexact.1 b.parentHash k).2 ⟨b, hb', rfl⟩
        rw [hpopped _ hparent] at hs
        cases hs
      · exact ⟨⟨⟨_, hw⟩, hm⟩, x, hx, h.keyed k _ hb⟩
    have hall : ∀ k, Under β p k → β.Ready k ∧ ∃ x ∈ (removeBlockWithChildren ord β p).1, x.1.hash = k := by
      intro k hu
      induction hu with
      | child hb hp => exact htaken _ _ hb (Or.inl hp)
      | deeper hb _ ih => exact htaken _ _ hb (Or.inr ih.2)
    exact (hall k hu).1
  · intro hready
    rw [LinksOn.exact_iff (hleaves.keyed h.keyed)]
    have hfirst := removeBlock_leaves β p
    simp only [removeBlockWithChildren]
    apply (h.drops (removeBlock_drops β p)).removeChildren
    intro q hq k hu
    rw [List.mem_singleton.1 hq] at hu
    have hr := hready k (hu.mono hfirst.blocks)
    cases hu with
    | child hb => exact hfirst.ready hb hr
    | deeper hb => exact hfirst.ready hb hr

/-- **One operation** keeps the links exact exactly when every block that it would unlink is ready. -/
theorem LinksOn.apply_iff (h : LinksOn Set.univ β) (op : BufferOp)
    (hsame : ∀ b b', op = .insertBlock b → β.blocks.get b.hash = some b' → b'.toSealedHeader = b.toSealedHeader) :
    (β.apply op).LinksExact ↔ β.FindsReady op := by
  have hkept : ∀ {β' : BlockBuffer}, LinksOn Set.univ β' → (β'.LinksExact ↔ True) :=
    fun hl => iff_true_intro ((LinksOn.exact_iff hl.keyed).2 hl)
  cases op with
  | insertBlock b => exact hkept (h.insertBlock fun b' => hsame b b' rfl)
  | insertWitness hash witness missing => exact hkept (h.drops (insertWitness_drops β hash witness missing))
  | removeBlock hash => exact hkept (h.drops (removeBlock_drops β hash))
  | removeWitness hash => exact hkept (h.drops (removeWitness_drops β hash))
  | removeBlockWithChildren ord parentHash => exact h.removeBlockWithChildren_iff ord parentHash
  | evictOldBlocks ord number => exact hkept (h.evictOldBlocks ord number)
  | onBytecodeReceived codeHash => exact hkept (h.drops (onBytecodeReceived_drops β codeHash))

/-- **Every link to a buffered block is kept**, in every state that a sequence of operations goes through, if and only
if each time the descendants of a block are taken out every one of them is ready. -/
theorem links_exact_iff (limit : ℕ) (ops : List BufferOp) (hops : HashesDetermine ops) :
    Run.Always apply LinksExact (BlockBuffer.new limit) ops ↔
      Run.AllSteps apply FindsReady (BlockBuffer.new limit) ops := by
  induction ops using List.reverseRecOn with
  | nil =>
    refine iff_of_true ?_ trivial
    intro pre post hsplit
    rw [(List.append_eq_nil_iff.1 hsplit.symm).1]
    exact ⟨fun p h => by simp [BlockBuffer.new], fun p => by simp [BlockBuffer.new]⟩
  | append_singleton ops op ih =>
    rw [Run.always_concat, Run.allSteps_append, ih hops.of_append]
    refine and_congr_right fun hall => ?_
    -- the links are exact before the last operation
    have hexact := (ih hops.of_append).2 hall ops [] (by simp)
    have hkeyed : (runOps limit ops).Keyed := runOps_keyed limit ops
    have hlinks : LinksOn Set.univ (runOps limit ops) := (LinksOn.exact_iff hkeyed).1 hexact
    rw [Run.run_append]
    refine (hlinks.apply_iff op ?_).trans (and_iff_left trivial).symm
    rintro b b' rfl hb'
    exact hops b' b (List.mem_append_left _ (runOps_blocks limit ops _ b' hb')) (by simp) (hkeyed _ _ hb')

/-- links lead to inserted blocks, from their parents -/
theorem runOps_children (limit : ℕ) (ops : List BufferOp) (p h : B256) (hh : h ∈ (runOps limit ops).children p) :
    ∃ b, .insertBlock b ∈ ops ∧ b.hash = h ∧ b.parentHash = p := by
  induction ops using List.reverseRecOn with
  | nil => simp [runOps, BlockBuffer.new, children] at hh
  | append_singleton ops op ih =>
    rw [runOps_concat] at hh
    rcases apply_children hh with hold | ⟨b, hop, hb⟩
    · obtain ⟨b, hmem, hb⟩ := ih hold
      exact ⟨b, List.mem_append_left _ hmem, hb⟩
    · exact ⟨b, by simp [hop], hb⟩

/-- a buffer that operations lead to, with room for at least one block -/
def Reachable (β : BlockBuffer) : Prop :=
  ∃ limit ops, 1 ≤ limit ∧ HashesDetermine ops ∧ β = runOps limit ops

theorem Reachable.aged (h : Reachable β) : ∃ limit history, Aged limit history Set.univ β := by
  obtain ⟨limit, ops, hlimit, hops, rfl⟩ := h
  exact ⟨limit, inserted ops, runs_aged hlimit hops⟩

theorem Reachable.linkSound (h : Reachable β) : β.LinkSound := by
  obtain ⟨limit, ops, -, hops, rfl⟩ := h
  intro p k b hb hk
  obtain ⟨b', hb', hk', rfl⟩ := runOps_children limit ops p k hk
  have hhash := (runOps_keyed limit ops k b hb).trans hk'.symm
  exact congrArg (fun x : SealedHeader => x.parentHash) (hops b b' (runOps_blocks limit ops k b hb) hb' hhash)

theorem hashesDetermine_one (b : Block) {ops : List BufferOp} (hops : ∀ b', .insertBlock b' ∈ ops → b' = b) :
    HashesDetermine ops := fun b₁ b₂ h₁ h₂ _ =>
  congrArg Block.toSealedHeader ((hops b₁ h₁).trans (hops b₂ h₂).symm)

/-- a child whose witness is there is taken with its parent, and no link is lost -/
theorem links_exact_ready :
    Run.Always apply LinksExact (BlockBuffer.new 2)
      [.insertBlock (pending 1), .insertWitness 2 ⟨[], 0⟩ ∅, .removeBlockWithChildren increasing 1] := by
  refine (links_exact_iff 2 _ (hashesDetermine_one (pending 1) (by simp))).2
    ⟨trivial, trivial, ?_, trivial⟩
  have hbuffered : ∀ h b, (runOps 2
      [.insertBlock (pending 1), .insertWitness 2 ⟨[], 0⟩ ∅]).blocks.get h = some b → h = 2 := by
    intro h b hb
    have hkeyed := runOps_keyed _ _ h b hb
    have hfrom := runOps_blocks _ _ h b hb
    simp only [List.mem_cons, BufferOp.insertBlock.injEq, reduceCtorEq, List.not_mem_nil, or_false] at hfrom
    rw [← hkeyed, hfrom]
    rfl
  have hready : (runOps 2 [.insertBlock (pending 1), .insertWitness 2 ⟨[], 0⟩ ∅]).Ready 2 := by
    exact ⟨⟨⟨[], 0⟩, by decide +kernel⟩, by decide +kernel⟩
  intro h hu
  cases hu with
  | child hb => rw [hbuffered h _ hb]; exact hready
  | deeper hb => rw [hbuffered h _ hb]; exact hready

/-- a child whose witness has not arrived stays in the buffer without its link -/
theorem link_lost :
    HashesDetermine [.insertBlock (pending 1), .removeBlockWithChildren increasing 1] ∧
      (runOps 256 [.insertBlock (pending 1), .removeBlockWithChildren increasing 1]).blocks.get 2 =
        some (pending 1) ∧
      (runOps 256 [.insertBlock (pending 1), .removeBlockWithChildren increasing 1]).parentToChild.get 1 =
        none ∧
      ¬ LinksExact (runOps 256 [.insertBlock (pending 1), .removeBlockWithChildren increasing 1]) := by
  have hblock : (runOps 256
      [.insertBlock (pending 1), .removeBlockWithChildren increasing 1]).blocks.get 2 = some (pending 1) := by
    decide +kernel
  have hlink : (runOps 256
      [.insertBlock (pending 1), .removeBlockWithChildren increasing 1]).parentToChild.get 1 = none := by decide +kernel
  refine ⟨hashesDetermine_one (pending 1) (by simp), hblock, hlink, ?_⟩
  intro hexact
  obtain ⟨s, hs, -⟩ := (hexact.1 1 2).2 ⟨pending 1, hblock, rfl⟩
  rw [hlink] at hs
  cases hs

end BlockBuffer

end Ress
