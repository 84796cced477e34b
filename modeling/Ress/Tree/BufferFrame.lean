/-
What the operations of the block buffer leave of each hash: its block, its witness and its missing bytecodes.

`Frees` says it of every removal: a hash keeps all three, or loses all three. So a witness goes with its block, and a
block that stays has the witness that it had. An insertion adds one block and frees at most one other
(`insertBlock_frees`); only `remove_witness` takes a witness and leaves the block.
-/
import Ress.Tree.BlockBuffer

namespace Ress

namespace BlockBuffer

/-- the same is stored under the hash -/
structure SameAt (k : B256) (β β' : BlockBuffer) : Prop where
  block : β'.blocks.get k = β.blocks.get k
  witness : β'.witnesses.get k = β.witnesses.get k
  missing : β'.missing k = β.missing k

/-- nothing is stored under the hash -/
structure EmptyAt (k : B256) (β : BlockBuffer) : Prop where
  block : β.blocks.get k = none
  witness : β.witnesses.get k = none
  missing : β.missing k = ∅

/-- every hash keeps what is stored under it, or loses all of it -/
def Frees (β β' : BlockBuffer) : Prop := ∀ k, SameAt k β β' ∨ EmptyAt k β'

variable {β β' β'' : BlockBuffer} {k : B256}

theorem SameAt.rfl' (k : B256) (β : BlockBuffer) : SameAt k β β := ⟨rfl, rfl, rfl⟩

theorem SameAt.trans (h : SameAt k β β') (h' : SameAt k β' β'') : SameAt k β β'' :=
  ⟨h'.block.trans h.block, h'.witness.trans h.witness, h'.missing.trans h.missing⟩

theorem SameAt.empty (h : SameAt k β β') (he : EmptyAt k β) : EmptyAt k β' :=
  ⟨h.block.trans he.block, h.witness.trans he.witness, h.missing.trans he.missing⟩

theorem SameAt.ready (h : SameAt k β β') : β'.Ready k ↔ β.Ready k := by
  unfold Ready
  rw [h.witness, h.missing]

theorem Frees.rfl' (β : BlockBuffer) : Frees β β := fun k => Or.inl (SameAt.rfl' k β)

theorem Frees.of_same (h : ∀ k, SameAt k β β') : Frees β β' := fun k => Or.inl (h k)

theorem Frees.trans (h : Frees β β') (h' : Frees β' β'') : Frees β β'' := by
  intro k
  rcases h' k with hs' | he'
  · rcases h k with hs | he
    · exact Or.inl (hs.trans hs')
    · exact Or.inr (hs'.empty he)
  · exact Or.inr he'

/-- what is stored under a hash whose block stays was stored under it before -/
theorem Frees.same_of_block (h : Frees β β') {b : Block} (hb : β'.blocks.get k = some b) : SameAt k β β' := by
  rcases h k with hs | he
  · exact hs
  · cases hb.symm.trans he.block

theorem Frees.same_of_witness (h : Frees β β') {w : ExecutionWitness} (hw : β'.witnesses.get k = some w) :
    SameAt k β β' := by
  rcases h k with hs | he
  · exact hs
  · cases hw.symm.trans he.witness

theorem Frees.keyed (h : Frees β β') (hk : β.Keyed) : β'.Keyed := by
  intro k b hb
  rw [(h.same_of_block hb).block] at hb
  exact hk k b hb

/-! ## One block -/

/-- a hash whose entries are deleted has nothing left; the others are not concerned -/
theorem frees_del (β : BlockBuffer) (hash : B256) (links : FMap B256 (Finset B256)) (earliest : FMap ℕ (Finset B256))
    (lru : LruMap) :
    Frees β ⟨β.blocks.del hash, β.witnesses.del hash, β.missingBytecodes.del hash, links, earliest, lru⟩ := by
  intro k
  by_cases hk : k = hash
  · subst hk
    refine Or.inr ⟨FMap.get_del_self _ _, FMap.get_del_self _ _, ?_⟩
    simp only [missing]
    rw [FMap.get_del_self]
    rfl
  · refine Or.inl ⟨FMap.get_del_ne _ hk, FMap.get_del_ne _ hk, ?_⟩
    simp only [missing]
    rw [FMap.get_del_ne _ hk]

theorem evictBlock_frees (β : BlockBuffer) (hash : B256) : Frees β (β.evictBlock hash).2 := by
  simp only [evictBlock]
  cases β.blocks.get hash with
  | none => exact Frees.rfl' β
  | some b => exact frees_del β hash _ _ _

theorem evictBlock_same (β : BlockBuffer) {hash k : B256} (hk : k ≠ hash) : SameAt k β (β.evictBlock hash).2 := by
  simp only [evictBlock]
  cases β.blocks.get hash with
  | none => exact SameAt.rfl' k β
  | some b =>
    refine ⟨FMap.get_del_ne _ hk, FMap.get_del_ne _ hk, ?_⟩
    simp only [missing, removeFromEarliestBlocks, removeFromParent, lruRemove]
    rw [FMap.get_del_ne _ hk]

theorem removeBlock_frees (β : BlockBuffer) (hash : B256) : Frees β (β.removeBlock hash).2 := by
  simp only [removeBlock, removeWitness]
  cases β.blocks.get hash with
  | none => exact Frees.rfl' β
  | some b =>
    simp only
    split_ifs with hm
    · cases hw : β.witnesses.get hash with
      | none =>
        intro k
        by_cases hk : k = hash
        · subst hk
          refine Or.inl ⟨rfl, ?_, ?_⟩
          · simp only
            rw [FMap.get_del_self, hw]
          · rw [hm]
            simp [missing]
        · refine Or.inl ⟨rfl, FMap.get_del_ne _ hk, ?_⟩
          simp only [missing]
          rw [FMap.get_del_ne _ hk]
      | some w => exact frees_del β hash _ _ _
    · exact Frees.rfl' β

/-- the witness of a payload is gone once it is taken, and nothing is missing for the hash -/
theorem removeWitness_taken {hash : B256} {w : ExecutionWitness} (h : (β.removeWitness hash).1 = some w) :
    (β.removeWitness hash).2.witnesses.get hash = none ∧ (β.removeWitness hash).2.missing hash = ∅ := by
  have hm := (removeWitness_some h).2
  have hstep : (β.removeWitness hash).2 = { β with
      witnesses := β.witnesses.del hash
      missingBytecodes := β.missingBytecodes.del hash } := by
    simp only [removeWitness]
    rw [if_pos hm]
  rw [hstep]
  exact ⟨FMap.get_del_self _ _, by simp [missing]⟩

/-- a payload takes the witness of its own hash only -/
theorem removeWitness_other (β : BlockBuffer) {hash : B256} (hk : k ≠ hash) : SameAt k β (β.removeWitness hash).2 := by
  simp only [removeWitness]
  split_ifs
  · refine ⟨rfl, FMap.get_del_ne _ hk, ?_⟩
    simp only [missing]
    rw [FMap.get_del_ne _ hk]
  · exact SameAt.rfl' k β

/-- and leaves everything where there is none that is complete -/
theorem removeWitness_same {hash : B256} (h : (β.removeWitness hash).1 = none) :
    SameAt hash β (β.removeWitness hash).2 := by
  by_cases hm : β.missing hash = ∅
  · have hstep : β.removeWitness hash = (β.witnesses.get hash, { β with
        witnesses := β.witnesses.del hash
        missingBytecodes := β.missingBytecodes.del hash }) := by
      simp only [removeWitness]
      rw [if_pos hm]
    rw [hstep] at h ⊢
    refine ⟨rfl, (FMap.get_del_self _ _).trans h.symm, ?_⟩
    rw [hm]
    simp [missing]
  · have hstep : β.removeWitness hash = (none, β) := by
      simp only [removeWitness]
      rw [if_neg hm]
    rw [hstep]
    exact SameAt.rfl' hash β

/-- taking a witness leaves the buffer as it was exactly if there is none that is complete -/
theorem removeWitness_same_iff (β : BlockBuffer) (hash : B256) :
    (∀ k, SameAt k β (β.removeWitness hash).2) ↔ ¬ β.Ready hash := by
  constructor
  · rintro hsame ⟨⟨w, hw⟩, hm⟩
    cases htaken : (β.removeWitness hash).1 with
    | none => exact removeWitness_none htaken ⟨⟨w, hw⟩, hm⟩
    | some w' =>
      have hgone := (removeWitness_taken htaken).1
      cases ((hsame hash).witness.trans hw).symm.trans hgone
  · intro hnot k
    by_cases hk : k = hash
    · subst hk
      apply removeWitness_same
      cases htaken : (β.removeWitness k).1 with
      | none => rfl
      | some w =>
        obtain ⟨hw, hm⟩ := removeWitness_some htaken
        exact absurd ⟨⟨w, hw⟩, hm⟩ hnot
    · exact removeWitness_other β hk

/-- a block that is ready has nothing left in the buffer once it is taken -/
theorem removeBlock_empty {hash : B256} (hr : β.Removable hash) :
    EmptyAt hash (β.removeBlock hash).2 := by
  rcases removeBlock_cases β hash with ⟨hnot, -⟩ | ⟨b, w, hb, -, -, -, hgone, -⟩
  · exact absurd hr hnot
  · rcases removeBlock_frees β hash hash with hsame | hempty
    · rw [hsame.block, hb] at hgone
      cases hgone
    · exact hempty

/-- **What an insertion leaves.** The block is stored, with what was there for its hash; at most one other block is
freed. -/
theorem insertBlock_frees (β : BlockBuffer) (b : Block) :
    Frees (β.addBlock b) (β.insertBlock b) ∧ SameAt b.hash (β.addBlock b) (β.insertBlock b) := by
  have hlru : ∀ k lru, SameAt k (β.addBlock b) { β.addBlock b with lru := lru } := fun _ _ => ⟨rfl, rfl, rfl⟩
  have hnone : ∀ lru, Frees (β.addBlock b) { β.addBlock b with lru := lru } ∧
      SameAt b.hash (β.addBlock b) { β.addBlock b with lru := lru } :=
    fun lru => ⟨Frees.of_same fun k => hlru k lru, hlru b.hash lru⟩
  simp only [insertBlock, insertHashAndGetEvicted]
  split_ifs with hfull
  · cases he : (β.addBlock b).lru.order.getLast? with
    | none => exact hnone _
    | some e =>
      -- the hash that goes was in the LRU map, and the new one was not
      have hne : b.hash ≠ e := by
        rintro rfl
        exact hfull.1 (List.mem_of_getLast? he)
      simp only
      generalize hβ : ({ β.addBlock b with
        lru := { (β.addBlock b).lru with
          order := b.hash :: (β.addBlock b).lru.order.dropLast.erase b.hash } } : BlockBuffer) = β₁
      have hfirst : Frees (β.addBlock b) β₁ ∧ SameAt b.hash (β.addBlock b) β₁ := hβ ▸ hnone _
      have hevict : Frees β₁ (β₁.evictBlock e).2 ∧ SameAt b.hash β₁ (β₁.evictBlock e).2 :=
        ⟨evictBlock_frees β₁ e, evictBlock_same β₁ hne⟩
      have hboth : Frees (β.addBlock b) (β₁.evictBlock e).2 ∧ SameAt b.hash (β.addBlock b) (β₁.evictBlock e).2 :=
        ⟨hfirst.1.trans hevict.1, hfirst.2.trans hevict.2⟩
      cases hr : β₁.evictBlock e with
      | mk evicted β₂ =>
        rw [hr] at hboth
        cases evicted with
        | none => exact hboth
        | some evictedBlock =>
          have hlink : ∀ k, SameAt k β₂ (β₂.removeFromParent evictedBlock.parentHash e) := fun _ => ⟨rfl, rfl, rfl⟩
          exact ⟨hboth.1.trans (Frees.of_same hlink), hboth.2.trans (hlink b.hash)⟩
  · exact hnone _

/-- a block of the buffer after an insertion is the one inserted or was there before -/
theorem insertBlock_blocks {b x : Block} (hx : (β.insertBlock b).blocks.get k = some x) :
    (k = b.hash ∧ x = b) ∨ (k ≠ b.hash ∧ β.blocks.get k = some x) := by
  have hadd := (insertBlock_frees β b).1.same_of_block hx
  rw [hadd.block] at hx
  simp only [addBlock, FMap.get_set] at hx
  split_ifs at hx with hk
  · exact Or.inl ⟨hk, (Option.some.inj hx).symm⟩
  · exact Or.inr ⟨hk, hx⟩

theorem Keyed.insertBlock (h : β.Keyed) (b : Block) : (β.insertBlock b).Keyed := by
  intro k x hx
  rcases insertBlock_blocks hx with ⟨rfl, rfl⟩ | ⟨-, hold⟩
  · rfl
  · exact h k x hold

theorem insertBlock_self (β : BlockBuffer) (b : Block) :
    (β.insertBlock b).blocks.get b.hash = some b ∧ ((β.insertBlock b).Ready b.hash ↔ β.Ready b.hash) := by
  have hsame := (insertBlock_frees β b).2
  refine ⟨?_, hsame.ready⟩
  rw [hsame.block]
  simp [addBlock]

/-! ## Descendants -/

theorem removeBlockWithChildren_frees (ord : Enumeration B256) (β : BlockBuffer) (p : B256) :
    Frees β (removeBlockWithChildren ord β p).2 :=
  removeBlockWithChildren_keeps (fun β' hash h => h.trans (removeBlock_frees β' hash))
    (fun _ _ h => h.trans (Frees.of_same fun _ => ⟨rfl, rfl, rfl⟩)) ord p (Frees.rfl' β)

/-- each block taken is there once, and is gone afterwards; nothing is asked of the links here -/
theorem removeChildren_taken (ord : Enumeration B256) (fuel : ℕ) (work : List B256) (β : BlockBuffer) (hk : β.Keyed) :
    Taken β (removeChildren ord fuel work β).2 (removeChildren ord fuel work β).1 := by
  induction fuel generalizing work β with
  | zero => exact (Shrinks.rfl' β).taken_nil
  | succ fuel ih =>
    cases work with
    | nil => exact (Shrinks.rfl' β).taken_nil
    | cons p work =>
      simp only [removeChildren]
      cases β.parentToChild.get p with
      | none => exact ih work β hk
      | some cs =>
        have hdel := del_entry_shrinks β p
        have hround := (removeBlocks_spec (hdel.keyed hk) (ord.list cs)).1
        have hrest := ih ((ord.list cs).reverse ++ work) _ ((hdel.trans hround.toShrinks).keyed hk)
        exact (hdel.taken_nil.append hround).append hrest

theorem removeBlockWithChildren_taken (ord : Enumeration B256) (β : BlockBuffer) (p : B256) (hk : β.Keyed) :
    Taken β (removeBlockWithChildren ord β p).2 (removeBlockWithChildren ord β p).1 := by
  have hfirst := (removeBlock_taken hk p).1
  simp only [removeBlockWithChildren]
  exact hfirst.append (removeChildren_taken ord _ _ _ (hfirst.toShrinks.keyed hk))

/-! ## Eviction -/

theorem evictOldBlocks_frees (ord : Enumeration B256) (β : BlockBuffer) (n : ℕ) :
    Frees β (evictOldBlocks ord β n) :=
  evictOldBlocks_keeps (fun β' hash h => h.trans (evictBlock_frees β' hash))
    (fun _ _ h => h.trans (Frees.of_same fun _ => ⟨rfl, rfl, rfl⟩))
    (fun _ _ h => h.trans (Frees.of_same fun _ => ⟨rfl, rfl, rfl⟩)) ord n (Frees.rfl' β)

end BlockBuffer

end Ress
