/-
The two worklist loops of the buffer, over a buffer with complete indices: what they reach, and so what
`remove_block_with_children` takes and what `evict_old_blocks` evicts.

A round pops a hash, forgets its links, and pushes its children, whether or not they were removed. The links of a parent
are exact until it is popped, so its children are met then at the latest: `Sweeps` says that the parents of what is not
met yet still have their links. Nothing is left of it in the end but that every descendant has been met.

- `removeBlockWithChildren_takes`: exactly the ready blocks of the subtree are taken, parents first, for any tree and any
  blocks in it that are not ready.
- `evictOldBlocks_exact`: exactly the old blocks and their descendants are evicted, and the indices are complete again.
-/
import Ress.Tree.BufferFrame
import Ress.Tree.BufferLinks

namespace Ress

open GroupIndex (Indexes group)

namespace BlockBuffer

variable {β₀ β β' β'' : BlockBuffer} {roots done : Set B256} {work : List B256}

/-! ## What a worklist loop meets -/

/-- one of these blocks, or a buffered descendant of one of them -/
def Family (β : BlockBuffer) (roots : Set B256) (h : B256) : Prop := h ∈ roots ∨ ∃ r ∈ roots, Under β r h

/-- a loop that started from `roots` in `β₀` has popped `done`: the links of the other parents are exact, and a block of
the family is met, or so will its parent be -/
structure Sweeps (β₀ : BlockBuffer) (roots done : Set B256) (work : List B256) (β : BlockBuffer) : Prop where
  links : LinksOn (Set.univ \ done) β
  blocks : ∀ h b, β.blocks.get h = some b → β₀.blocks.get h = some b
  roots_met : ∀ r ∈ roots, r ∈ work ∨ r ∈ done
  children_met : ∀ h b, β₀.blocks.get h = some b → b.parentHash ∈ done → h ∈ work ∨ h ∈ done
  lost : ∀ h b, β₀.blocks.get h = some b → β.blocks.get h = none → h ∈ roots ∨ b.parentHash ∈ done
  family : ∀ h, h ∈ work ∨ h ∈ done → Family β₀ roots h

theorem Family.child {q h : B256} {b : Block} (hq : Family β₀ roots q) (hb : β₀.blocks.get h = some b)
    (hp : b.parentHash = q) : Family β₀ roots h := by
  subst hp
  rcases hq with hroot | ⟨r, hr, hu⟩
  · exact Or.inr ⟨_, hroot, Under.child hb rfl⟩
  · exact Or.inr ⟨r, hr, Under.deeper hb hu⟩

/-- when the worklist is empty, the whole family has been met -/
theorem Sweeps.done_iff (h : Sweeps β₀ roots done [] β) (k : B256) : k ∈ done ↔ Family β₀ roots k := by
  have hroots : ∀ r ∈ roots, r ∈ done := fun r hr => (h.roots_met r hr).resolve_left (by simp)
  have hchild : ∀ k b, β₀.blocks.get k = some b → b.parentHash ∈ done → k ∈ done :=
    fun k b hb hp => (h.children_met k b hb hp).resolve_left (by simp)
  constructor
  · exact fun hk => h.family k (Or.inr hk)
  · rintro (hroot | ⟨r, hr, hu⟩)
    · exact hroots k hroot
    · induction hu with
      | child hb hp => exact hchild _ _ hb (hp ▸ hroots r hr)
      | deeper hb _ ih => exact hchild _ _ hb ih

/-- a child of the hash that is popped is in the buffer, or it has been met -/
theorem Sweeps.child_cases {q : B256} (h : Sweeps β₀ roots done (q :: work) β) {k : B256} {b : Block}
    (hb : β₀.blocks.get k = some b) (hp : b.parentHash = q) :
    (β.blocks.get k = some b ∧ q ∉ done) ∨ k = q ∨ k ∈ work ∨ k ∈ done := by
  have hmet : ∀ k, k ∈ q :: work ∨ k ∈ done → k = q ∨ k ∈ work ∨ k ∈ done := by
    intro k hk
    rcases hk with hk | hk
    · rcases List.mem_cons.1 hk with rfl | hk
      · exact Or.inl rfl
      · exact Or.inr (Or.inl hk)
    · exact Or.inr (Or.inr hk)
  by_cases hq : q ∈ done
  · exact Or.inr (hmet k (h.children_met k b hb (hp ▸ hq)))
  · cases hget : β.blocks.get k with
    | some b' =>
      have := h.blocks k b' hget
      rw [hb] at this
      cases this
      exact Or.inl ⟨rfl, hq⟩
    | none =>
      rcases h.lost k b hb hget with hroot | hparent
      · exact Or.inr (hmet k (h.roots_met k hroot))
      · exact absurd (hp ▸ hparent) hq

/-- **A hash without links** is popped. -/
theorem Sweeps.skip {q : B256} (h : Sweeps β₀ roots done (q :: work) β) (hq : β.parentToChild.get q = none) :
    Sweeps β₀ roots (insert q done) work β := by
  have hpop : ∀ k, k ∈ q :: work ∨ k ∈ done → k ∈ work ∨ k ∈ insert q done := by
    intro k hk
    rcases hk with hk | hk
    · rcases List.mem_cons.1 hk with rfl | hk
      · exact Or.inr (Set.mem_insert _ _)
      · exact Or.inl hk
    · exact Or.inr (Set.mem_insert_of_mem _ hk)
  refine ⟨⟨h.links.keyed, ?_, ?_, h.links.links.noEmpty⟩, h.blocks, fun r hr => hpop r (h.roots_met r hr), ?_, ?_, ?_⟩
  · exact fun k hk => h.links.links.exact k ⟨hk.1, fun hd => hk.2 (Set.mem_insert_of_mem _ hd)⟩
  · intro k hk
    by_cases hkq : k = q
    · rw [hkq]
      exact hq
    · apply h.links.links.outside
      rintro ⟨-, hd⟩
      exact hk ⟨Set.mem_univ k, fun hins => (Set.mem_insert_iff.1 hins).elim hkq hd⟩
  · intro k b hb hp
    rcases Set.mem_insert_iff.1 hp with hp | hp
    · rcases h.child_cases hb hp with ⟨hget, hd⟩ | rfl | hk | hk
      · -- an exact link would be there
        have hmem := (h.links.links.exact q ⟨Set.mem_univ q, hd⟩ k).2 ⟨b, hget, hp⟩
        simp [group, hq] at hmem
      · exact Or.inr (Set.mem_insert _ _)
      · exact Or.inl hk
      · exact Or.inr (Set.mem_insert_of_mem _ hk)
    · exact hpop k (h.children_met k b hb hp)
  · intro k b hb hnone
    exact (h.lost k b hb hnone).imp id (Set.mem_insert_of_mem _)
  · intro k hk
    apply h.family
    rcases hk with hk | hk
    · exact Or.inl (List.mem_cons_of_mem _ hk)
    · rcases Set.mem_insert_iff.1 hk with rfl | hk
      · exact Or.inl List.mem_cons_self
      · exact Or.inr hk

/-- **A hash with links** is popped: its children come to the worklist, and of the blocks only such children go. -/
theorem Sweeps.round {q : B256} {cs : Finset B256} (ord : Enumeration B256) (h : Sweeps β₀ roots done (q :: work) β)
    (hq : β.parentToChild.get q = some cs) (hlinks : LinksOn ((Set.univ \ done) \ {q}) β')
    (hblocks : ∀ k b, β'.blocks.get k = some b → β.blocks.get k = some b)
    (hgone : ∀ k b, β.blocks.get k = some b → β'.blocks.get k = none → k ∈ cs) :
    Sweeps β₀ roots (insert q done) ((ord.list cs).reverse ++ work) β' := by
  have hnot : q ∉ done := by
    intro hd
    have := h.links.links.outside q fun hc => hc.2 hd
    rw [hq] at this
    cases this
  have hchild : ∀ k, k ∈ cs ↔ ∃ b, β.blocks.get k = some b ∧ b.parentHash = q := by
    intro k
    rw [← GroupIndex.group_of_get hq]
    exact h.links.links.exact q ⟨Set.mem_univ q, hnot⟩ k
  have hpush : ∀ k, k ∈ q :: work ∨ k ∈ done → k ∈ (ord.list cs).reverse ++ work ∨ k ∈ insert q done := by
    intro k hk
    rcases hk with hk | hk
    · rcases List.mem_cons.1 hk with rfl | hk
      · exact Or.inr (Set.mem_insert _ _)
      · exact Or.inl (List.mem_append_right _ hk)
    · exact Or.inr (Set.mem_insert_of_mem _ hk)
  refine ⟨?_, fun k b hb => h.blocks k b (hblocks k b hb), fun r hr => hpush r (h.roots_met r hr), ?_, ?_, ?_⟩
  · rw [Set.sdiff_sdiff, Set.union_singleton] at hlinks
    exact hlinks
  · intro k b hb hp
    rcases Set.mem_insert_iff.1 hp with hp | hp
    · rcases h.child_cases hb hp with ⟨hget, -⟩ | rfl | hk | hk
      · exact Or.inl (List.mem_append_left _ (List.mem_reverse.2 ((ord.mem cs k).2 ((hchild k).2 ⟨b, hget, hp⟩))))
      · exact Or.inr (Set.mem_insert _ _)
      · exact Or.inl (List.mem_append_right _ hk)
      · exact Or.inr (Set.mem_insert_of_mem _ hk)
    · exact hpush k (h.children_met k b hb hp)
  · intro k b hb hnone
    cases hget : β.blocks.get k with
    | none => exact (h.lost k b hb hget).imp id (Set.mem_insert_of_mem _)
    | some b' =>
      obtain ⟨x, hx, hxq⟩ := (hchild k).1 (hgone k b' hget hnone)
      have := h.blocks k x hx
      rw [hb] at this
      cases this
      exact Or.inr (Set.mem_insert_iff.2 (Or.inl hxq))
  · intro k hk
    rcases hk with hk | hk
    · rcases List.mem_append.1 hk with hk | hk
      · obtain ⟨b, hb, hp⟩ := (hchild k).1 ((ord.mem cs k).1 (List.mem_reverse.1 hk))
        exact (h.family q (Or.inl List.mem_cons_self)).child (h.blocks k b hb) hp
      · exact h.family k (Or.inl (List.mem_cons_of_mem _ hk))
    · rcases Set.mem_insert_iff.1 hk with rfl | hk
      · exact h.family _ (Or.inl List.mem_cons_self)
      · exact h.family k (Or.inr hk)

/-! ## The loop -/

/-- the worklist loop, for any way to treat the children of a parent -/
def sweep {α : Type} (treat : BlockBuffer → List B256 → List α × BlockBuffer) (ord : Enumeration B256) :
    ℕ → List B256 → BlockBuffer → List α × BlockBuffer
  | 0, _, buffer => ([], buffer)
  | _ + 1, [], buffer => ([], buffer)
  | fuel + 1, parentHash :: work, buffer =>
    match buffer.parentToChild.get parentHash with
    | none => sweep treat ord fuel work buffer
    | some parentChildren =>
      let (out, buffer) :=
        treat { buffer with parentToChild := buffer.parentToChild.del parentHash } (ord.list parentChildren)
      let (rest, buffer) := sweep treat ord fuel ((ord.list parentChildren).reverse ++ work) buffer
      (out ++ rest, buffer)

/-- what the loop asks of it: only treated blocks go, and a treated hash is `Q` from then on -/
structure Treats {α : Type} (treat : BlockBuffer → List B256 → List α × BlockBuffer)
    (Q : BlockBuffer → B256 → Prop) : Prop where
  shrinks : ∀ β hashes, Shrinks β (treat β hashes).2
  links : ∀ β hashes S, LinksOn S β → LinksOn S (treat β hashes).2
  gone : ∀ β hashes, β.Keyed → ∀ k b, β.blocks.get k = some b → (treat β hashes).2.blocks.get k = none → k ∈ hashes
  treated : ∀ β hashes, β.Keyed → ∀ k ∈ hashes, Q (treat β hashes).2 k
  stable : ∀ β β' k, Shrinks β β' → Q β k → Q β' k

variable {α : Type} {treat : BlockBuffer → List B256 → List α × BlockBuffer} {Q : BlockBuffer → B256 → Prop}

/-- **The loop** meets the whole family, and has treated all of it in the end. -/
theorem Treats.sweep_sweeps (ht : Treats treat Q) (ord : Enumeration B256) (fuel : ℕ) (work : List B256)
    (done : Set B256) (β : BlockBuffer) (h : Sweeps β₀ roots done work β) (hfuel : β.rounds work ≤ fuel)
    (htried : ∀ k, k ∈ work ∨ k ∈ done → Q β k) :
    ∃ done', Sweeps β₀ roots done' [] (sweep treat ord fuel work β).2 ∧
      ∀ k ∈ done', Q (sweep treat ord fuel work β).2 k := by
  induction fuel generalizing work done β with
  | zero =>
    have hnil : work = [] := List.eq_nil_of_length_eq_zero (by unfold rounds at hfuel; omega)
    subst hnil
    exact ⟨done, h, fun k hk => htried k (Or.inr hk)⟩
  | succ fuel ih =>
    cases work with
    | nil => exact ⟨done, h, fun k hk => htried k (Or.inr hk)⟩
    | cons q work =>
      have hmet : ∀ k, k ∈ work ∨ k ∈ insert q done → Q β k := by
        intro k hk
        rcases hk with hk | hk
        · exact htried k (Or.inl (List.mem_cons_of_mem _ hk))
        · rcases Set.mem_insert_iff.1 hk with rfl | hk
          · exact htried k (Or.inl List.mem_cons_self)
          · exact htried k (Or.inr hk)
      simp only [sweep]
      cases hq : β.parentToChild.get q with
      | none =>
        apply ih work (insert q done) β (h.skip hq) _ hmet
        unfold rounds at hfuel ⊢
        simp only [List.length_cons] at hfuel
        omega
      | some cs =>
        have hdel := h.links.unlink q
        have hshrinks := ht.shrinks { β with parentToChild := β.parentToChild.del q } (ord.list cs)
        have hround : Round β _ q cs := ⟨hq, hshrinks⟩
        have hboth := (del_entry_shrinks β q).trans hshrinks
        refine ih ((ord.list cs).reverse ++ work) (insert q done) _
          (h.round ord hq (ht.links _ (ord.list cs) _ hdel) hboth.blocks ?_) (hround.rounds_le hfuel) ?_
        · intro k b hb hnone
          exact (ord.mem cs k).1 (ht.gone _ (ord.list cs) hdel.keyed k b hb hnone)
        · intro k hk
          rcases hk with hk | hk
          · rcases List.mem_append.1 hk with hk | hk
            · exact ht.treated _ _ hdel.keyed k (List.mem_reverse.1 hk)
            · exact ht.stable _ _ k hboth (hmet k (Or.inl hk))
          · exact ht.stable _ _ k hboth (hmet k (Or.inr hk))

/-- one more round than `rounds` allows changes nothing -/
theorem Treats.sweep_succ (ht : Treats treat Q) (ord : Enumeration B256) (fuel : ℕ) (work : List B256)
    (β : BlockBuffer) (hfuel : β.rounds work ≤ fuel) :
    sweep treat ord (fuel + 1) work β = sweep treat ord fuel work β := by
  induction fuel generalizing work β with
  | zero =>
    have hnil : work = [] := List.eq_nil_of_length_eq_zero (by unfold rounds at hfuel; omega)
    subst hnil
    rfl
  | succ fuel ih =>
    cases work with
    | nil => rfl
    | cons q work =>
      rw [sweep, sweep]
      cases hq : β.parentToChild.get q with
      | none =>
        apply ih work β
        unfold rounds at hfuel ⊢
        simp only [List.length_cons] at hfuel
        omega
      | some cs =>
        have hround : Round β _ q cs := ⟨hq, ht.shrinks _ (ord.list cs)⟩
        simp only
        rw [ih _ _ (hround.rounds_le hfuel)]

/-- **The loop ends** within the rounds that `rounds` allows. -/
theorem Treats.sweep_enough (ht : Treats treat Q) (ord : Enumeration B256) (work : List B256) (β : BlockBuffer)
    (fuel : ℕ) (hfuel : β.rounds work ≤ fuel) :
    sweep treat ord fuel work β = sweep treat ord (β.rounds work) work β := by
  induction fuel, hfuel using Nat.le_induction with
  | base => rfl
  | succ fuel hle ih =>
    calc sweep treat ord (fuel + 1) work β
        = sweep treat ord fuel work β := ht.sweep_succ ord fuel work β hle
      _ = sweep treat ord (β.rounds work) work β := ih

/-! ## Taking a subtree -/

theorem removeChildren_eq_sweep (ord : Enumeration B256) (fuel : ℕ) (work : List B256) (β : BlockBuffer) :
    removeChildren ord fuel work β = sweep removeBlocks ord fuel work β := by
  induction fuel generalizing work β with
  | zero => rfl
  | succ fuel ih =>
    cases work with
    | nil => rfl
    | cons q work =>
      simp only [removeChildren, sweep]
      cases β.parentToChild.get q with
      | none => exact ih work β
      | some cs =>
        simp only
        rw [ih]

theorem removeBlocks_treats : Treats removeBlocks fun β k => ¬β.Removable k where
  shrinks := fun β hashes => (removeBlocks_leaves β hashes).toShrinks
  links := fun _ hashes _ h => removeBlocks_keeps (fun β hash hl => LinksOn.drops hl (removeBlock_drops β hash)) hashes h
  gone := by
    intro β hashes hk k b hb hnone
    rcases (removeBlocks_leaves β hashes).left k b hb with hb' | ⟨x, hx, rfl, -⟩
    · cases hnone.symm.trans hb'
    · rw [← hk k x.1 hb]
      exact (removeBlocks_spec hk hashes).2.2.2 x hx
  treated := fun _ hashes hk => (removeBlocks_spec hk hashes).2.2.1
  stable := fun _ _ _ hs hnot hr => hnot (hs.removable hr)

theorem removeBlock_same_or (hk : β.Keyed) (hash k : B256) :
    SameAt k β (β.removeBlock hash).2 ∨ ∃ x ∈ (β.removeBlock hash).1.toList, x.1.hash = k := by
  have hother := fun hne : k ≠ hash => removeWitness_other β hne
  have hself : (β.removeWitness hash).1 = none → SameAt hash β (β.removeWitness hash).2 := removeWitness_same
  simp only [removeBlock]
  cases hb : β.blocks.get hash with
  | none => exact Or.inl (SameAt.rfl' k β)
  | some b =>
    simp only
    cases hw : β.removeWitness hash with
    | mk witness β₁ =>
      rw [hw] at hother hself
      cases witness with
      | none =>
        by_cases hkh : k = hash
        · subst hkh
          exact Or.inl (hself rfl)
        · exact Or.inl (hother hkh)
      | some w =>
        by_cases hkh : k = hash
        · subst hkh
          exact Or.inr ⟨(b, w), List.mem_singleton_self _, hk k b hb⟩
        · have hsame := hother hkh
          exact Or.inl ⟨(FMap.get_del_ne _ hkh).trans hsame.block, hsame.witness, hsame.missing⟩

theorem removeBlocks_same_or (hashes : List B256) (hk : β.Keyed) (k : B256) :
    SameAt k β (β.removeBlocks hashes).2 ∨ ∃ x ∈ (β.removeBlocks hashes).1, x.1.hash = k := by
  induction hashes generalizing β with
  | nil => exact Or.inl (SameAt.rfl' k β)
  | cons hash hashes ih =>
    rw [removeBlocks_cons]
    rcases removeBlock_same_or hk hash k with hsame | ⟨x, hx, hxk⟩
    · rcases ih ((removeBlock_removes β hash).toShrinks.keyed hk) with hsame' | ⟨x, hx, hxk⟩
      · exact Or.inl (hsame.trans hsame')
      · exact Or.inr ⟨x, List.mem_append_right _ hx, hxk⟩
    · exact Or.inr ⟨x, List.mem_append_left _ hx, hxk⟩

theorem removeChildren_same_or (ord : Enumeration B256) (fuel : ℕ) (work : List B256) (hk : β.Keyed) (k : B256) :
    SameAt k β (removeChildren ord fuel work β).2 ∨ ∃ x ∈ (removeChildren ord fuel work β).1, x.1.hash = k := by
  induction fuel generalizing work β with
  | zero => exact Or.inl (SameAt.rfl' k β)
  | succ fuel ih =>
    cases work with
    | nil => exact Or.inl (SameAt.rfl' k β)
    | cons q work =>
      simp only [removeChildren]
      cases β.parentToChild.get q with
      | none => exact ih work hk
      | some cs =>
        have hdel := del_entry_shrinks β q
        have htaken := (removeBlocks_spec (hdel.keyed hk) (ord.list cs)).1
        rcases removeBlocks_same_or (ord.list cs) (hdel.keyed hk) k with hsame | ⟨x, hx, hxk⟩
        · rcases ih ((ord.list cs).reverse ++ work) ((hdel.trans htaken.toShrinks).keyed hk) with hsame' | ⟨x, hx, hxk⟩
          · exact Or.inl ((show SameAt k β _ from ⟨hsame.block, hsame.witness, hsame.missing⟩).trans hsame')
          · exact Or.inr ⟨x, List.mem_append_right _ hx, hxk⟩
        · exact Or.inr ⟨x, List.mem_append_left _ hx, hxk⟩

/-- a hash keeps its entries, or its block is among those taken -/
theorem removeBlockWithChildren_same_or (ord : Enumeration B256) (p : B256) (hk : β.Keyed) (k : B256) :
    SameAt k β (removeBlockWithChildren ord β p).2 ∨ ∃ x ∈ (removeBlockWithChildren ord β p).1, x.1.hash = k := by
  have hk' : (β.removeBlock p).2.Keyed := (removeBlock_removes β p).toShrinks.keyed hk
  rcases removeBlock_same_or hk p k with hsame | ⟨x, hx, hxk⟩
  · rcases removeChildren_same_or ord ((β.removeBlock p).2.rounds [p] + 1) [p] hk' k with hsame' | ⟨x, hx, hxk⟩
    · exact Or.inl (hsame.trans hsame')
    · exact Or.inr ⟨x, List.mem_append_right _ hx, hxk⟩
  · exact Or.inr ⟨x, List.mem_append_left _ hx, hxk⟩

/-- what `remove_block_with_children` takes and leaves -/
structure TakesSubtree (β : BlockBuffer) (p : B256) (β' : BlockBuffer) (l : List (Block × ExecutionWitness)) :
    Prop where
  exact : ∀ b w, (b, w) ∈ l ↔ β.blocks.get b.hash = some b ∧ β.witnesses.get b.hash = some w ∧
    β.missing b.hash = ∅ ∧ (b.hash = p ∨ Under β p b.hash)
  nodup : (l.map fun x => x.1.hash).Nodup
  -- a block that is its own descendant would name itself in its hash
  ordered : ¬Under β p p → l.Pairwise fun x y => x.1.parentHash ≠ y.1.hash
  kept : ∀ k, (∀ x ∈ l, x.1.hash ≠ k) → SameAt k β β'

/-- the worklist of `remove_block_with_children`, before its first round -/
theorem removeBlock_sweeps (hk : β.Keyed) (hlinks : β.LinksExact) (p : B256) :
    Sweeps β {p} ∅ [p] (β.removeBlock p).2 := by
  have hleaves := removeBlock_leaves β p
  have hdropped : LinksOn Set.univ (β.removeBlock p).2 :=
    ((LinksOn.exact_iff hk).1 hlinks).drops (removeBlock_drops β p)
  refine ⟨?_, hleaves.blocks, ?_, fun k b hb hp => absurd hp (Set.notMem_empty _), ?_, ?_⟩
  · rw [Set.sdiff_empty]
    exact hdropped
  · intro r hr
    exact Or.inl (List.mem_singleton.2 hr)
  · intro k b hb hnone
    rcases hleaves.left k b hb with hb' | ⟨x, hx, rfl, -⟩
    · cases hnone.symm.trans hb'
    · exact Or.inl ((hk k x.1 hb).symm.trans ((removeBlock_taken hk p).2.2 x hx))
  · intro k hmet
    rcases hmet with hmet | hmet
    · exact Or.inl (List.mem_singleton.1 hmet)
    · exact absurd hmet (Set.notMem_empty k)

/-- **Taking a block with its descendants.** Over complete links exactly the ready blocks of the subtree are taken, each
once and after its parent, and nothing else changes; the loop is done within its bound. -/
theorem removeBlockWithChildren_takes (ord : Enumeration B256) (hk : β.Keyed) (hlinks : β.LinksExact) (p : B256) :
    TakesSubtree β p (removeBlockWithChildren ord β p).2 (removeBlockWithChildren ord β p).1 ∧
      ∀ fuel ≥ (β.removeBlock p).2.rounds [p], removeChildren ord fuel [p] (β.removeBlock p).2 =
        removeChildren ord ((β.removeBlock p).2.rounds [p] + 1) [p] (β.removeBlock p).2 := by
  have hfirst := removeBlock_sweeps hk hlinks p
  have hnot := (removeBlock_taken hk p).2.1
  have hk' : (β.removeBlock p).2.Keyed := (removeBlock_removes β p).toShrinks.keyed hk
  obtain ⟨done, hsweeps, htried⟩ := removeBlocks_treats.sweep_sweeps ord ((β.removeBlock p).2.rounds [p] + 1) [p] ∅ _
    hfirst (Nat.le_succ _) (by
      intro k hmet
      rcases hmet with hmet | hmet
      · rw [List.mem_singleton.1 hmet]
        exact hnot
      · exact absurd hmet (Set.notMem_empty k))
  rw [← removeChildren_eq_sweep] at hsweeps htried
  have htaken := removeBlockWithChildren_taken ord β p hk
  have hleaves := removeBlockWithChildren_leaves ord β p
  have hsound : β.LinkSound := ((LinksOn.exact_iff hk).1 hlinks).linkSound
  have hordered := (removeBlockWithChildren_spec ord β p hk hsound).2.2.2
  -- the loop has met the block and its descendants, and those only
  have hmet : ∀ k, k ∈ done ↔ k = p ∨ Under β p k := by
    intro k
    simpa [Family] using hsweeps.done_iff k
  have hrest : (removeChildren ord ((β.removeBlock p).2.rounds [p] + 1) [p] (β.removeBlock p).2).2 =
      (removeBlockWithChildren ord β p).2 := rfl
  rw [hrest] at hsweeps htried
  have hfamily : ∀ x ∈ (removeBlockWithChildren ord β p).1, x.1.hash = p ∨ Under β p x.1.hash := by
    intro x hx
    have hb := (htaken.taken x hx).1
    rcases hsweeps.lost _ _ hb (htaken.gone x hx) with hroot | hparent
    · exact Or.inl hroot
    · rcases (hmet _).1 hparent with hpp | hu
      · exact Or.inr (Under.child hb hpp)
      · exact Or.inr (Under.deeper hb hu)
  refine ⟨⟨?_, htaken.nodup, ?_, ?_⟩, fun fuel hfuel => ?_⟩
  · intro b w
    constructor
    · intro hx
      obtain ⟨hb, hw, hm⟩ := htaken.taken _ hx
      exact ⟨hb, hw, hm, hfamily _ hx⟩
    · rintro ⟨hb, hw, hm, hfam⟩
      rcases hleaves.left _ b hb with hb' | ⟨x, hx, hxb, hxw, -⟩
      · have hready : (removeBlockWithChildren ord β p).2.Ready b.hash := hleaves.ready hb' ⟨⟨w, hw⟩, hm⟩
        exact absurd ⟨⟨b, hb'⟩, hready⟩ (htried _ ((hmet _).2 hfam))
      · have hxe : x = (b, w) := Prod.ext hxb (Option.some.inj (hxw.symm.trans hw))
        exact hxe ▸ hx
  · intro hcycle
    refine hordered.imp_of_mem ?_
    intro x y hx hy hxy heq
    rcases hxy with hxp | hne
    · -- its parent would be below it
      have hbx := (htaken.taken x hx).1
      rw [hxp] at hbx
      rcases hfamily y hy with hyp | hu
      · exact hcycle (Under.child hbx (heq.trans hyp))
      · exact hcycle (Under.deeper hbx (heq ▸ hu))
    · exact hne heq
  · intro k hnone
    rcases removeBlockWithChildren_same_or ord p hk k with hsame | ⟨x, hx, hxk⟩
    · exact hsame
    · exact absurd hxk (hnone x hx)
  · rw [removeChildren_eq_sweep, removeChildren_eq_sweep, removeBlocks_treats.sweep_enough ord [p] _ fuel hfuel,
      removeBlocks_treats.sweep_enough ord [p] _ _ (Nat.le_succ _)]

/-- a block without a witness, its child with one, and another block -/
def gapOps : List BufferOp :=
  [.insertBlock (pending 1), .insertBlock (pending 2), .insertBlock (pending 5), .insertWitness 3 ⟨[], 0⟩ ∅]

theorem gapOps_determine : HashesDetermine gapOps := by
  intro b b' hb hb' heq
  simp only [gapOps, List.mem_cons, BufferOp.insertBlock.injEq, reduceCtorEq, List.not_mem_nil, or_false] at hb hb'
  rcases hb with rfl | rfl | rfl <;> rcases hb' with rfl | rfl | rfl
  all_goals first
    | rfl
    | exact absurd heq (by decide)

theorem gapOps_linksExact : LinksExact (runOps 3 gapOps) :=
  (links_exact_iff 3 gapOps gapOps_determine).2 ⟨trivial, trivial, trivial, trivial, trivial⟩ gapOps []
    (List.append_nil _).symm

/-- a ready block is reached through its parent, which is not ready -/
theorem removeBlockWithChildren_takes_gap :
    (pending 2, ⟨[], 0⟩) ∈ (removeBlockWithChildren increasing (runOps 3 gapOps) 1).1 ∧
      ∀ fuel ≥ ((runOps 3 gapOps).removeBlock 1).2.rounds [1],
        removeChildren increasing fuel [1] ((runOps 3 gapOps).removeBlock 1).2 =
          removeChildren increasing (((runOps 3 gapOps).removeBlock 1).2.rounds [1] + 1) [1]
            ((runOps 3 gapOps).removeBlock 1).2 := by
  obtain ⟨htakes, henough⟩ := removeBlockWithChildren_takes increasing (runOps_keyed 3 gapOps) gapOps_linksExact 1
  have hchild : Under (runOps 3 gapOps) 1 2 := Under.child (b := pending 1) (by decide +kernel) rfl
  have hgrandchild : Under (runOps 3 gapOps) 1 3 := Under.deeper (b := pending 2) (by decide +kernel) hchild
  exact ⟨(htakes.exact _ _).2 ⟨by decide +kernel, by decide +kernel, by decide +kernel, Or.inr hgrandchild⟩, henough⟩

/-! ## Evicting old blocks -/

/-- every index holds exactly the buffered blocks -/
structure Complete (β : BlockBuffer) : Prop where
  keyed : β.Keyed
  links : β.LinksExact
  numbers : Indexes (fun b : Block => b.number) Set.univ β.blocks β.earliestBlocks
  lru : β.lru.order.Nodup ∧ ∀ h, h ∈ β.lru.order ↔ h ∈ β.blocks.keys

/-- what `evict_old_blocks` evicts and leaves -/
structure EvictsOld (β : BlockBuffer) (n : ℕ) (β' : BlockBuffer) : Prop where
  blocks : ∀ h b, β'.blocks.get h = some b ↔ β.blocks.get h = some b ∧ n < b.number ∧
    ∀ r old, β.blocks.get r = some old → old.number ≤ n → ¬Under β r h
  evicted : ∀ h b, β.blocks.get h = some b → β'.blocks.get h = none →
    β'.witnesses.get h = none ∧ β'.missingBytecodes.get h = none
  kept : ∀ h, (β.blocks.get h = none ∨ β'.blocks.get h ≠ none) →
    β'.witnesses.get h = β.witnesses.get h ∧ β'.missingBytecodes.get h = β.missingBytecodes.get h

/-- the hash keeps its entries -/
def KeepsAt (k : B256) (β β' : BlockBuffer) : Prop :=
  β'.blocks.get k = β.blocks.get k ∧ β'.witnesses.get k = β.witnesses.get k ∧
    β'.missingBytecodes.get k = β.missingBytecodes.get k

/-- a buffered hash loses its entries -/
def LosesAt (k : B256) (β β' : BlockBuffer) : Prop :=
  β.blocks.get k ≠ none ∧ β'.blocks.get k = none ∧ β'.witnesses.get k = none ∧ β'.missingBytecodes.get k = none

/-- entries go with their block, and only with it -/
def Evicts (β β' : BlockBuffer) : Prop := ∀ k, KeepsAt k β β' ∨ LosesAt k β β'

theorem Evicts.of_keeps (h : ∀ k, KeepsAt k β β') : Evicts β β' := fun k => Or.inl (h k)

theorem Evicts.trans (h : Evicts β β') (h' : Evicts β' β'') : Evicts β β'' := by
  intro k
  rcases h k with ⟨hb, hw, hm⟩ | ⟨hbuffered, hb, hw, hm⟩
  · rcases h' k with ⟨hb', hw', hm'⟩ | ⟨hbuffered', hgone⟩
    · exact Or.inl ⟨hb'.trans hb, hw'.trans hw, hm'.trans hm⟩
    · exact Or.inr ⟨by rw [← hb]; exact hbuffered', hgone⟩
  · rcases h' k with ⟨hb', hw', hm'⟩ | ⟨-, hgone⟩
    · exact Or.inr ⟨hbuffered, hb'.trans hb, hw'.trans hw, hm'.trans hm⟩
    · exact Or.inr ⟨hbuffered, hgone⟩

theorem evictBlock_evicts (β : BlockBuffer) (hash : B256) : Evicts β (β.evictBlock hash).2 := by
  intro k
  simp only [evictBlock]
  cases hb : β.blocks.get hash with
  | none => exact Or.inl ⟨rfl, rfl, rfl⟩
  | some b =>
    by_cases hk : k = hash
    · subst hk
      exact Or.inr ⟨by rw [hb]; simp, FMap.get_del_self _ _, FMap.get_del_self _ _, FMap.get_del_self _ _⟩
    · exact Or.inl ⟨FMap.get_del_ne _ hk, FMap.get_del_ne _ hk, FMap.get_del_ne _ hk⟩

/-- only the blocks of the list are evicted -/
theorem evictBlocks_gone (hashes : List B256) {k : B256} {b : Block} (hb : β.blocks.get k = some b)
    (hnone : (β.evictBlocks hashes).blocks.get k = none) : k ∈ hashes := by
  induction hashes generalizing β with
  | nil => cases hnone.symm.trans hb
  | cons hash hashes ih =>
    by_cases hk : k = hash
    · exact hk ▸ List.mem_cons_self
    · exact List.mem_cons_of_mem _ (ih ((evictBlock_same β hk).block.trans hb) hnone)

theorem evictOldBlocks_evicts (ord : Enumeration B256) (n : ℕ) (β : BlockBuffer) : Evicts β (evictOldBlocks ord β n) :=
  evictOldBlocks_keeps (fun β' hash h => h.trans (evictBlock_evicts β' hash))
    (fun _ _ h => h.trans (Evicts.of_keeps fun _ => ⟨rfl, rfl, rfl⟩))
    (fun _ _ h => h.trans (Evicts.of_keeps fun _ => ⟨rfl, rfl, rfl⟩)) ord n (Evicts.of_keeps fun _ => ⟨rfl, rfl, rfl⟩)

theorem evictChildren_eq_sweep (ord : Enumeration B256) (fuel : ℕ) (work : List B256) (β : BlockBuffer) :
    evictChildren ord fuel work β =
      (sweep (fun buffer hashes => (([] : List Block), buffer.evictBlocks hashes)) ord fuel work β).2 := by
  induction fuel generalizing work β with
  | zero => rfl
  | succ fuel ih =>
    cases work with
    | nil => rfl
    | cons q work =>
      simp only [evictChildren, sweep]
      cases β.parentToChild.get q with
      | none => exact ih work β
      | some cs => exact ih _ _

theorem evictBlocks_treats :
    Treats (fun buffer hashes => (([] : List Block), buffer.evictBlocks hashes)) fun β k => β.blocks.get k = none where
  shrinks := fun β hashes => (evictBlocks_removes hashes β).1.toShrinks
  links := fun _ hashes _ h => evictBlocks_keeps (fun β hash hl => LinksOn.drops hl (evictBlock_drops β hash)) hashes h
  gone := fun _ hashes _ _ _ hb hnone => evictBlocks_gone hashes hb hnone
  treated := fun β hashes _ => (evictBlocks_removes hashes β).2
  stable := fun _ _ _ hs hnone => hs.gone hnone

/-- one more round than there are numbers changes nothing -/
theorem popEarliest_succ (ord : Enumeration B256) (n fuel : ℕ) (β : BlockBuffer)
    (hfuel : β.earliestBlocks.keys.card ≤ fuel) : popEarliest ord n (fuel + 1) β = popEarliest ord n fuel β := by
  induction fuel generalizing β with
  | zero =>
    have hkeys : β.earliestBlocks.keys = ∅ := Finset.card_eq_zero.1 (Nat.le_zero.1 hfuel)
    simp only [popEarliest]
    cases hfirst : β.earliestBlocks.firstKey with
    | none => rfl
    | some number =>
      have hmem := (FMap.firstKey_some hfirst).1
      rw [hkeys] at hmem
      exact absurd hmem (Finset.notMem_empty number)
  | succ fuel ih =>
    rw [popEarliest, popEarliest]
    cases hfirst : β.earliestBlocks.firstKey with
    | none => rfl
    | some number =>
      have hcard : (β.earliestBlocks.del number).keys.card ≤ fuel := by
        rw [FMap.keys_del, Finset.card_erase_of_mem (FMap.firstKey_some hfirst).1]
        omega
      simp only
      rw [ih _ hcard]

/-- the old blocks -/
def Old (β : BlockBuffer) (n : ℕ) : Set B256 := {r | ∃ old, β.blocks.get r = some old ∧ old.number ≤ n}

/-- the worklist of `evict_old_blocks`, before its first round -/
theorem evictBlocks_sweeps (h : β.Complete) (ord : Enumeration B256) (n : ℕ) {hashes : List B256} {β₁ : BlockBuffer}
    (hpop : popEarliest ord n β.earliestBlocks.keys.card β = (hashes, β₁)) :
    Sweeps β (β.Old n) ∅ hashes.reverse (β₁.evictBlocks hashes) := by
  obtain ⟨earliest, heq, -, hmem⟩ := popEarliest_spec ord n β.earliestBlocks.keys.card β le_rfl
  rw [hpop] at heq hmem
  simp only at heq hmem
  subst heq
  have hold : ∀ r, r ∈ hashes ↔ r ∈ β.Old n := by
    intro r
    rw [hmem r]
    constructor
    · rintro ⟨k, hk, hr⟩
      obtain ⟨old, hold, rfl⟩ := (h.numbers.exact k (Set.mem_univ k) r).1 hr
      exact ⟨old, hold, hk⟩
    · rintro ⟨old, hold, hle⟩
      exact ⟨old.number, hle, (h.numbers.exact _ (Set.mem_univ _) r).2 ⟨old, hold, rfl⟩⟩
  have hlinks : LinksOn Set.univ { β with earliestBlocks := earliest } :=
    ⟨h.keyed, ((LinksOn.exact_iff h.keyed).1 h.links).links⟩
  refine ⟨?_, ?_, ?_, fun k b _ hp => absurd hp (Set.notMem_empty _), ?_, ?_⟩
  · rw [Set.sdiff_empty]
    exact evictBlocks_keeps (fun β hash hl => LinksOn.drops hl (evictBlock_drops β hash)) hashes hlinks
  · exact (evictBlocks_removes hashes _).1.toShrinks.blocks
  · intro r hr
    exact Or.inl (List.mem_reverse.2 ((hold r).2 hr))
  · intro k b hb hnone
    exact Or.inl ((hold k).1 (evictBlocks_gone (β := { β with earliestBlocks := earliest }) hashes hb hnone))
  · intro k hmet
    rcases hmet with hmet | hmet
    · exact Or.inl ((hold k).1 (List.mem_reverse.1 hmet))
    · exact absurd hmet (Set.notMem_empty k)

/-- a loop that has met the family of the old blocks, and evicted what it met, leaves what it should -/
theorem Sweeps.evictsOld {n : ℕ} (h : Sweeps β₀ (β₀.Old n) done [] β) (hgone : ∀ k ∈ done, β.blocks.get k = none)
    (he : Evicts β₀ β) : EvictsOld β₀ n β := by
  refine ⟨?_, ?_, ?_⟩
  · intro k b
    constructor
    · intro hb
      have hb₀ := h.blocks k b hb
      have hnot : ¬Family β₀ (β₀.Old n) k := by
        intro hfam
        cases hb.symm.trans (hgone k ((h.done_iff k).2 hfam))
      refine ⟨hb₀, ?_, ?_⟩
      · by_contra hle
        exact hnot (Or.inl ⟨b, hb₀, not_lt.1 hle⟩)
      · intro r old hold hle hu
        exact hnot (Or.inr ⟨r, ⟨old, hold, hle⟩, hu⟩)
    · rintro ⟨hb₀, hlt, hnot⟩
      cases hget : β.blocks.get k with
      | some b' => exact (h.blocks k b' hget).symm.trans hb₀
      | none =>
        exfalso
        rcases h.lost k b hb₀ hget with ⟨old, hold, hle⟩ | hparent
        · cases hb₀.symm.trans hold
          exact absurd hlt (not_lt.2 hle)
        · rcases (h.done_iff _).1 hparent with ⟨old, hold, hle⟩ | ⟨r, ⟨old, hold, hle⟩, hu⟩
          · exact hnot _ old hold hle (Under.child hb₀ rfl)
          · exact hnot r old hold hle (Under.deeper hb₀ hu)
  · intro k b hb hnone
    rcases he k with ⟨hkept, -⟩ | ⟨-, -, hlost⟩
    · cases (hnone.symm.trans hkept).trans hb
    · exact hlost
  · intro k hk
    rcases he k with ⟨-, hkept⟩ | ⟨hbuffered, hnone, -⟩
    · exact hkept
    · rcases hk with hk | hk
      · exact absurd hk hbuffered
      · exact absurd hnone hk

theorem Complete.evictOldBlocks (h : β.Complete) (ord : Enumeration B256) (n : ℕ) :
    Complete (evictOldBlocks ord β n) := by
  have hkeyed := (evictOldBlocks_removes ord β n).toShrinks.keyed h.keyed
  have hlinks := ((LinksOn.exact_iff h.keyed).1 h.links).evictOldBlocks ord n
  refine ⟨hkeyed, (LinksOn.exact_iff hkeyed).2 hlinks, evictOldBlocks_numbers h.numbers ord n, ?_⟩
  exact evictOldBlocks_keeps
    (P := fun β => β.lru.order.Nodup ∧ ∀ k, k ∈ β.lru.order ↔ k ∈ β.blocks.keys)
    (fun β hash hl => (evictBlock_drops β hash).lru hl) (fun _ _ hl => hl) (fun _ _ hl => hl) ord n h.lru

/-- **Evicting old blocks.** Over complete indices exactly the old blocks and their descendants go, with their witnesses
and missing bytecodes, and the indices are complete again; both loops are done within their bounds. -/
theorem evictOldBlocks_exact (ord : Enumeration B256) (h : β.Complete) (n : ℕ) :
    EvictsOld β n (evictOldBlocks ord β n) ∧ Complete (evictOldBlocks ord β n) ∧
      (∀ fuel ≥ β.earliestBlocks.keys.card,
        popEarliest ord n fuel β = popEarliest ord n β.earliestBlocks.keys.card β) ∧
      ∀ hashes β₁, popEarliest ord n β.earliestBlocks.keys.card β = (hashes, β₁) →
        ∀ fuel ≥ (β₁.evictBlocks hashes).rounds hashes,
          evictChildren ord fuel hashes.reverse (β₁.evictBlocks hashes) = evictOldBlocks ord β n := by
  refine ⟨?_, h.evictOldBlocks ord n, ?_, ?_⟩
  · have hevicts := evictOldBlocks_evicts ord n β
    simp only [evictOldBlocks] at hevicts ⊢
    cases hpop : popEarliest ord n β.earliestBlocks.keys.card β with
    | mk hashes β₁ =>
      rw [hpop] at hevicts
      have hsweeps := evictBlocks_sweeps h ord n hpop
      have hrounds : (β₁.evictBlocks hashes).rounds hashes.reverse ≤ (β₁.evictBlocks hashes).rounds hashes + 1 := by
        simp [rounds]
      obtain ⟨done, hdone, hgone⟩ := evictBlocks_treats.sweep_sweeps ord _ hashes.reverse ∅ _ hsweeps hrounds (by
        intro k hmet
        rcases hmet with hmet | hmet
        · exact (evictBlocks_removes hashes β₁).2 k (List.mem_reverse.1 hmet)
        · exact absurd hmet (Set.notMem_empty k))
      rw [← evictChildren_eq_sweep] at hdone hgone
      exact hdone.evictsOld hgone hevicts
  · intro fuel hfuel
    induction fuel, hfuel using Nat.le_induction with
    | base => rfl
    | succ fuel hle ih => exact (popEarliest_succ ord n fuel β hle).trans ih
  · intro hashes β₁ hpop fuel hfuel
    have hrounds : (β₁.evictBlocks hashes).rounds hashes.reverse = (β₁.evictBlocks hashes).rounds hashes := by
      simp [rounds]
    rw [← hrounds] at hfuel
    simp only [evictOldBlocks]
    rw [hpop]
    simp only
    rw [evictChildren_eq_sweep, evictChildren_eq_sweep, evictBlocks_treats.sweep_enough ord hashes.reverse _ fuel hfuel,
      evictBlocks_treats.sweep_enough ord hashes.reverse _ _ (hrounds.le.trans (Nat.le_succ _))]

theorem gapOps_complete : Complete (runOps 3 gapOps) := by
  have haged := runs_aged (show 1 ≤ 3 by decide) gapOps_determine
  exact ⟨haged.keyed, gapOps_linksExact, haged.numbers, haged.lru_nodup, haged.lru_keys⟩

/-- a block above the number goes with its parent, which is not -/
theorem evictOldBlocks_exact_gap :
    (runOps 3 gapOps).blocks.get 3 = some (pending 2) ∧
      (evictOldBlocks increasing (runOps 3 gapOps) 1).blocks.get 3 = none ∧
      Complete (evictOldBlocks increasing (runOps 3 gapOps) 1) := by
  obtain ⟨hevicts, hcomplete, -⟩ := evictOldBlocks_exact increasing gapOps_complete 1
  have hold : (runOps 3 gapOps).blocks.get 2 = some (pending 1) := by decide +kernel
  have hchild : (runOps 3 gapOps).blocks.get 3 = some (pending 2) := by decide +kernel
  refine ⟨hchild, ?_, hcomplete⟩
  cases hget : (evictOldBlocks increasing (runOps 3 gapOps) 1).blocks.get 3 with
  | none => rfl
  | some b => exact absurd (Under.child hchild rfl) (((hevicts.blocks 3 b).1 hget).2.2 2 (pending 1) hold le_rfl)

end BlockBuffer

end Ress
