/-
The two chains of a reorg diverge at the fork point.

`EngineTree::on_new_head` gathers the blocks of the new chain and of the old one down to where they meet. `Diverging` is
what an update then has to be: chains of linked headers that end at the target and at the head, start from one block, and
share none, so that the reorged blocks are the ones that leave the canonical chain.

- `onNewHeadCounted_eq`: the height counters of the two loops agree at the debug assertion;
- `walkToFork_apart`: the chains above the fork have no block in common;
- `onNewHead_diverging_iff`: the updates are as they have to be for exactly the targets that are not stored blocks of
  the canonical chain itself. The new chain always includes the target, so for a canonical target the old chain has it
  as well (`canonical_target_shared`).
-/
import Ress.Tree.NewHead

namespace Ress

namespace NewCanonicalChain

/-- the length of the reorged chain -/
def reorgedBlockCount : NewCanonicalChain → ℕ
  | commit _ _ => 0
  | reorg _ _ old => old.length

theorem reorgedBlockCount_eq (update : NewCanonicalChain) : update.reorgedBlockCount = update.old.length := by
  cases update <;> rfl

end NewCanonicalChain

namespace ChainState

/-! ## The height counters -/

theorem walkBackWhile_eq (s : ChainState) (floor number : ℕ) (hash : B256) (chain : List SealedHeader) :
    s.walkBackWhile floor number hash chain =
      (s.walkBack (number - floor) hash chain).map fun r => (min number floor, r.1, r.2) := by
  induction number generalizing hash chain with
  | zero => simp [walkBackWhile, walkBack]
  | succ number ih =>
    unfold walkBackWhile
    split_ifs with hlt
    · rw [show number + 1 - floor = (number - floor) + 1 by omega]
      unfold walkBack
      cases s.sealedHeader hash with
      | none => rfl
      | some header =>
        simp only [ih]
        rw [show min (number + 1) floor = min number floor by omega]
    · rw [show number + 1 - floor = 0 by omega, show min (number + 1) floor = number + 1 by omega]
      rfl

/-- **The height counters are equal at the debug assertion**, which therefore never fails. -/
theorem onNewHeadCounted_eq (s : ChainState) (canonicalHead : BlockNumHash) (newHead : B256) :
    s.onNewHeadCounted canonicalHead newHead = .ok (s.onNewHead canonicalHead newHead) := by
  unfold onNewHeadCounted onNewHead
  cases s.sealedHeader newHead with
  | none => rfl
  | some block =>
    simp only [walkBackWhile_eq]
    cases s.walkBack (block.parentNumHash.number - canonicalHead.number) block.parentNumHash.hash [] with
    | none => rfl
    | some cur =>
      simp only [Option.map_some]
      split_ifs with hcur
      · rfl
      · cases s.walkBack (canonicalHead.number - min block.parentNumHash.number canonicalHead.number)
          canonicalHead.hash [] with
        | none => rfl
        | some old =>
          -- from the canonical side the counter comes down to the same height
          have hsame : min block.parentNumHash.number canonicalHead.number =
              min canonicalHead.number (min block.parentNumHash.number canonicalHead.number) := by omega
          simp only [Option.map_some]
          rw [if_pos hsame]
          cases s.walkToFork (s.blocksByHash.keys.card + 1) old.1 cur.1 old.2 cur.2 <;> rfl

/-! ## Above the fork the chains are apart -/

variable {W : World} {s : ChainState}

theorem walkBack_length {steps : ℕ} {hash hash' : B256} {chain chain' : List SealedHeader}
    (h : s.walkBack steps hash chain = some (hash', chain')) : chain'.length = chain.length + steps := by
  induction steps generalizing hash chain with
  | zero =>
    simp only [walkBack, Option.some.injEq, Prod.mk.injEq] at h
    rw [← h.2, Nat.add_zero]
  | succ steps ih =>
    unfold walkBack at h
    split at h
    · cases h
    · rw [ih h, List.length_cons]
      omega

/-- the old chain is not empty if it was not, or the walk takes a step -/
theorem walkToFork_old_ne_nil {fuel : ℕ} {a b : B256} {old new old' new' : List SealedHeader} (hne : old ≠ [] ∨ a ≠ b)
    (h : s.walkToFork fuel a b old new = some (new', old')) : old' ≠ [] := by
  induction fuel generalizing a b old new with
  | zero => simp [walkToFork] at h
  | succ fuel ih =>
    unfold walkToFork at h
    split_ifs at h with hab
    · simp only [Option.some.injEq, Prod.mk.injEq] at h
      rw [← h.2]
      exact hne.resolve_right (not_not.2 hab)
    · split at h
      · exact ih (Or.inl (List.cons_ne_nil _ _)) h
      · cases h

/-- **The walk to the fork block keeps the chains apart**: the blocks it adds are at one height, below the others, and
differ. -/
theorem walkToFork_apart (hk : s.Known W) (hl : s.Linked W) {fuel n : ℕ} {a b topA topB : B256}
    {old new old' new' : List SealedHeader} (ha : W.HasNumber a n) (hb : W.HasNumber b n)
    (hold : Segment W a old topA) (hnew : Segment W b new topB) (hapart : ∀ x ∈ new, ∀ y ∈ old, x.hash ≠ y.hash)
    (h : s.walkToFork fuel a b old new = some (new', old')) : ∀ x ∈ new', ∀ y ∈ old', x.hash ≠ y.hash := by
  induction fuel generalizing n a b old new with
  | zero => simp [walkToFork] at h
  | succ fuel ih =>
    unfold walkToFork at h
    split_ifs at h with hab
    · simp only [Option.some.injEq, Prod.mk.injEq] at h
      rw [← h.1, ← h.2]
      exact hapart
    · split at h
      · rename_i x y hx hy
        cases n with
        | zero =>
          -- both would be genesis
          exact absurd ((hl.genesis_of_zero ha hx).trans (hl.genesis_of_zero hb hy).symm) hab
        | succ n =>
          obtain ⟨hax, han⟩ := not_genesis_of_pos ha hl hx
          obtain ⟨hby, hbn⟩ := not_genesis_of_pos hb hl hy
          have hxh := (hk.header hx).1
          have hyh := (hk.header hy).1
          refine ih han hbn (Segment.cons (hxh ▸ hold) (hxh ▸ hax)) (Segment.cons (hyh ▸ hnew) (hyh ▸ hby)) ?_ h
          have habove : ∀ z ∈ old, W.num a < W.num z.hash := fun z hz =>
            Ancestry.SegmentOf.num_lt World.link_num hold _ (List.mem_map_of_mem hz)
          have habove' : ∀ z ∈ new, W.num b < W.num z.hash := fun z hz =>
            Ancestry.SegmentOf.num_lt World.link_num hnew _ (List.mem_map_of_mem hz)
          rw [ha.num_eq] at habove
          rw [hb.num_eq] at habove'
          intro u hu v hv
          rcases List.mem_cons.1 hu with rfl | hu <;> rcases List.mem_cons.1 hv with rfl | hv
          · rw [hyh, hxh]
            exact Ne.symm hab
          · intro heq
            have hlt := habove v hv
            rw [← heq, hyh, hb.num_eq] at hlt
            exact lt_irrefl _ hlt
          · intro heq
            have hlt := habove' u hu
            rw [heq, hxh, ha.num_eq] at hlt
            exact lt_irrefl _ hlt
          · exact hapart u hu v hv
      · cases h

/-- **Above the fork block a reorg's chains are apart**, if the new head is not a block of the old chain. -/
theorem onNewHead_apart (hk : s.Known W) (hl : s.Linked W) {canonicalHead : BlockNumHash} {newHead : B256}
    {new old : List SealedHeader} {ne : new ≠ []} (hhead : W.HasNumber canonicalHead.hash canonicalHead.number)
    (h : s.onNewHead canonicalHead newHead = some (.reorg new ne old)) :
    old ≠ [] ∧ ∀ x ∈ new, ∀ y ∈ old, x.hash = y.hash → x.hash = newHead := by
  obtain ⟨block, cur, newAbove, hb, hw1, hcase⟩ := onNewHead_cases h
  rcases hcase with ⟨-, _, hcommit⟩ | ⟨hcur, first, oldAbove, newBelow, old', hw2, hw3, _, hreorg⟩
  · cases hcommit
  · cases hreorg
    obtain ⟨-, hparent⟩ := onNewHead_link hk hl hhead h hb
    obtain ⟨hnew, hcurn⟩ := walkBack_level hk hl hparent hw1
    obtain ⟨hold, hfirstn⟩ := walkBack_level hk hl hhead hw2
    rw [min_eq_right (min_le_right _ _)] at hfirstn
    have hlength := walkBack_length hw2
    have hlength' := walkBack_length hw1
    rw [List.length_nil, Nat.zero_add] at hlength hlength'
    refine ⟨walkToFork_old_ne_nil ?_ hw3, ?_⟩
    · -- level chains differ at the head, and otherwise the old chain is walked back first
      by_cases hlevel : canonicalHead.number - min (block.number - 1) canonicalHead.number = 0
      · rw [hlevel] at hw2
        rw [walkBack_zero hw2]
        exact Or.inr (Ne.symm hcur)
      · refine Or.inl fun hnil => hlevel ?_
        rw [← hlength, hnil, List.length_nil]
    · -- only one of the two chains is above the common height
      have hstart : ∀ x ∈ newAbove, ∀ y ∈ oldAbove, x.hash ≠ y.hash := by
        intro x hx y hy
        have hpos := List.length_pos_of_mem hx
        have hpos' := List.length_pos_of_mem hy
        omega
      have hapart := walkToFork_apart hk hl hfirstn hcurn hold hnew hstart hw3
      intro x hx y hy heq
      rcases List.mem_append.1 hx with hx | hx
      · exact absurd heq (hapart x hx y hy)
      · rw [List.mem_singleton.1 hx]
        exact (hk.header hb).1

/-! ## What an update has to be -/

/-- a rising chain of linked headers, from the one whose parent is `base` to `top` -/
structure Rises (base : B256) (l : List SealedHeader) (top : B256) : Prop where
  first : ∃ x, l.head? = some x ∧ x.parentHash = base
  linked : l.IsChain fun x y => y.parentHash = x.hash ∧ y.number = x.number + 1
  last : ∃ x, l.getLast? = some x ∧ x.hash = top

/-- an append rises from the canonical head to the target; the chains of a reorg rise from one block to the target and
to the canonical head, and have no block in common -/
def Forks (canonicalHead target : B256) : NewCanonicalChain → Prop
  | .commit new _ => Rises canonicalHead new target
  | .reorg new _ old =>
    (∃ fork, Rises fork new target ∧ Rises fork old canonicalHead) ∧ ∀ x ∈ new, ∀ y ∈ old, x.hash ≠ y.hash

/-- what `on_new_head` has to do for a target -/
structure Diverging (s : ChainState) (canonicalHead : BlockNumHash) (target : B256) : Prop where
  forks : ∀ update, s.onNewHead canonicalHead target = some update → Forks canonicalHead.hash target update
  /-- the reorged blocks are those that leave the canonical chain -/
  reorged : ∀ update, s.onNewHead canonicalHead target = some update →
    update.reorgedBlockCount = {h | s.StoredAnc canonicalHead.hash h ∧ ¬ s.StoredAnc target h}.ncard
  heights : s.onNewHeadCounted canonicalHead target = .ok (s.onNewHead canonicalHead target)
  /-- the blocks from the target and from the head down to a common one are stored -/
  found : s.Stored target → s.Meets target canonicalHead.hash → (s.onNewHead canonicalHead target).isSome = true

theorem Segment.rises (hk : s.Known W) {base top : B256} {l : List SealedHeader} (h : Segment W base l top)
    (hl : s.AllStored l) (hne : l ≠ []) : Rises base l top := by
  induction l using List.reverseRecOn generalizing top with
  | nil => exact absurd rfl hne
  | append_singleton l x ih =>
    simp only [Segment, List.map_append, List.map_singleton] at h
    obtain ⟨rfl, p, hseg, hlink⟩ := h.concat_inv
    obtain ⟨k, hx⟩ := hl x (by simp)
    obtain ⟨-, hxw⟩ := hk.header hx
    have hparent : x.parentHash = p := World.Link.parent hxw hlink
    have hlast : ∃ y, (l ++ [x]).getLast? = some y ∧ y.hash = x.hash := ⟨x, by simp, rfl⟩
    by_cases hnil : l = []
    · subst hnil
      have hp : p = base := Ancestry.SegmentOf.nil_inv hseg
      exact ⟨⟨x, rfl, hparent.trans hp⟩, List.isChain_singleton x, hlast⟩
    · have hlow := ih hseg (fun y hy => hl y (List.mem_append_left _ hy)) hnil
      obtain ⟨first, hfirst, hbase⟩ := hlow.first
      obtain ⟨y, hy, hyp⟩ := hlow.last
      refine ⟨⟨first, by rw [List.head?_append, hfirst]; rfl, hbase⟩, ?_, hlast⟩
      rw [List.isChain_append]
      refine ⟨hlow.linked, List.isChain_singleton x, ?_⟩
      intro z hz w hw
      rw [hy] at hz
      cases hz
      cases hw
      refine ⟨hparent.trans hyp.symm, ?_⟩
      obtain ⟨k', hy'⟩ := hl y (List.mem_append_left _ (List.mem_of_getLast? hy))
      have hnum := World.link_num _ _ hlink
      rwa [← hyp, hxw.hasNumber.num_eq, (hk.header hy').2.hasNumber.num_eq] at hnum

/-- the old chain of an update has exactly the blocks that leave the canonical chain, each of them once -/
theorem reorged_eq (hk : s.Known W) (hl : s.Linked W) {fork head target : B256} {new old : List SealedHeader}
    (hold : Segment W fork old head) (hnew : Segment W fork new target) (holds : s.AllStored old)
    (hnews : s.AllStored new) (hapart : ∀ x ∈ new, ∀ y ∈ old, x.hash ≠ y.hash) :
    old.length = {h | s.StoredAnc head h ∧ ¬ s.StoredAnc target h}.ncard := by
  have holdS := hold.stored hk holds
  have hnewS := hnew.stored hk hnews
  have hset : {h | s.StoredAnc head h ∧ ¬ s.StoredAnc target h} = ((old.map (·.hash)).toFinset : Set B256) := by
    ext h
    rw [Set.mem_ofPred_eq, List.coe_toFinset, Set.mem_ofPred_eq]
    constructor
    · intro ⟨hanc, hnot⟩
      refine (Ancestry.segment_split storedLink_fun holdS hanc).resolve_right fun hfork => hnot ?_
      exact hnewS.anc.trans hfork
    · intro hmem
      refine ⟨holdS.mem_anc h hmem, fun hanc => ?_⟩
      obtain ⟨y, hy, rfl⟩ := List.mem_map.1 hmem
      rcases Ancestry.segment_split storedLink_fun hnewS hanc with hmem' | hfork
      · obtain ⟨x, hx, heq⟩ := List.mem_map.1 hmem'
        exact hapart x hx y hy heq
      · -- below the fork there is no block of the old chain
        obtain ⟨k, hy'⟩ := holds y hy
        have hyn := (hk.header hy').2.hasNumber
        have hle := Ancestry.num_le World.link_num (StoredAnc.anc hk hl hfork hyn)
        have hlt := Ancestry.SegmentOf.num_lt World.link_num hold _ (List.mem_map_of_mem hy)
        omega
  rw [hset, Set.ncard_coe_finset, List.toFinset_card_of_nodup, List.length_map]
  exact Ancestry.SegmentOf.nodup World.link_num hold

/-- a target whose segment from a common ancestor is not empty is on the old chain only -/
theorem canonical_target_mem (hk : s.Known W) (hl : s.Linked W) {fork head target : B256} {new old : List SealedHeader}
    (hold : Segment W fork old head) (hnew : Segment W fork new target) (holds : s.AllStored old) {n : ℕ}
    (hn : W.HasNumber target n) (hne : new ≠ []) (hanc : s.StoredAnc head target) : ∃ y ∈ old, y.hash = target := by
  have hmem : target ∈ old.map (·.hash) := by
    refine (Ancestry.segment_split storedLink_fun (hold.stored hk holds) hanc).resolve_right fun hfork => ?_
    have hle := Ancestry.num_le World.link_num (StoredAnc.anc hk hl hfork hn)
    obtain ⟨l, x, rfl⟩ : ∃ l x, new = l ++ [x] := ⟨_, _, (List.dropLast_append_getLast hne).symm⟩
    have hlt := Ancestry.SegmentOf.num_lt World.link_num hnew x.hash (by simp)
    simp only [Segment, List.map_append, List.map_singleton] at hnew
    rw [(Ancestry.SegmentOf.concat_inv hnew).1] at hle
    omega
  obtain ⟨y, hy, heq⟩ := List.mem_map.1 hmem
  exact ⟨y, hy, heq⟩

/-- the chains of an update have no block in common, for a target off the canonical chain -/
theorem onNewHead_disjoint (hk : s.Known W) (hl : s.Linked W) {canonicalHead : BlockNumHash} {target : B256}
    {update : NewCanonicalChain} (hhead : W.HasNumber canonicalHead.hash canonicalHead.number)
    (hu : s.onNewHead canonicalHead target = some update) (hnot : ¬ s.StoredAnc canonicalHead.hash target) :
    ∀ x ∈ update.new, ∀ y ∈ update.old, x.hash ≠ y.hash := by
  intro x hx y hy heq
  obtain ⟨-, -, holds⟩ := onNewHead_stored hu
  obtain ⟨fork, hold, -⟩ := onNewHead_segments hk hl hhead hu
  cases update with
  | commit new ne => simp [NewCanonicalChain.old] at hy
  | reorg new ne old =>
    have htarget := (onNewHead_apart hk hl hhead hu).2 x hx y hy heq
    refine hnot ?_
    rw [← htarget, heq]
    exact (hold.storedAnc hk holds).2 y hy

/-- off the canonical chain an update has the right form -/
theorem onNewHead_forks (hk : s.Known W) (hl : s.Linked W) {canonicalHead : BlockNumHash} {target : B256}
    {update : NewCanonicalChain} (hhead : W.HasNumber canonicalHead.hash canonicalHead.number)
    (hu : s.onNewHead canonicalHead target = some update) (hnot : ¬ s.StoredAnc canonicalHead.hash target) :
    Forks canonicalHead.hash target update := by
  obtain ⟨-, hnews, holds⟩ := onNewHead_stored hu
  obtain ⟨fork, hold, hnew⟩ := onNewHead_segments hk hl hhead hu
  have hdisjoint := onNewHead_disjoint hk hl hhead hu hnot
  cases update with
  | commit new ne =>
    have hfork : canonicalHead.hash = fork := Ancestry.SegmentOf.nil_inv hold
    rw [← hfork] at hnew
    exact hnew.rises hk hnews ne
  | reorg new ne old =>
    have hne := (onNewHead_apart hk hl hhead hu).1
    exact ⟨⟨fork, hnew.rises hk hnews ne, hold.rises hk holds hne⟩, hdisjoint⟩

/-- a stored block off the canonical chain whose chain meets it is not genesis -/
theorem Meets.link (hk : s.Known W) (hl : s.Linked W) {head target : B256} {b : Block} {n : ℕ}
    (hmeets : s.Meets target head) (hn : W.HasNumber head n) (hb : s.blocksByHash.get target = some b)
    (hnot : ¬ s.StoredAnc head target) : W.Link target b.parentHash := by
  refine (hl target b hb).resolve_left fun hgen => hnot ?_
  have hzero : W.HasNumber target 0 := ⟨_, hgen ▸ W.genesis_known, W.genesis_number⟩
  obtain ⟨f, k, hf, hleft, hright⟩ := hmeets.exists_number hl hzero hn
  -- no block is below genesis
  have hanc := StoredAnc.anc hk hl hleft hf
  have hle := Ancestry.num_le World.link_num hanc
  have heq : f = target := Ancestry.eq_of_num World.link_num hanc (by rw [hzero.num_eq] at hle ⊢; omega)
  rwa [← heq]

/-- **Reorg chains diverge at the fork point**, and an update is found whenever the blocks above it are stored: for
exactly the targets that are not stored blocks of the canonical chain. -/
theorem onNewHead_diverging_iff (hk : s.Known W) (hl : s.Linked W) (canonicalHead : BlockNumHash)
    (hhead : W.HasNumber canonicalHead.hash canonicalHead.number) (target : B256) :
    Diverging s canonicalHead target ↔ ¬ (s.Stored target ∧ s.StoredAnc canonicalHead.hash target) := by
  constructor
  · intro hd ⟨hstored, hanc⟩
    have hsome := hd.found hstored ⟨target, Relation.ReflTransGen.refl, hanc⟩
    obtain ⟨update, hu⟩ := Option.isSome_iff_exists.1 hsome
    obtain ⟨htip, -, holds⟩ := onNewHead_stored hu
    obtain ⟨fork, hold, hnew⟩ := onNewHead_segments hk hl hhead hu
    obtain ⟨hhash, hknown⟩ := hk.header htip
    have hn : W.HasNumber target update.tip.number := hhash ▸ hknown.hasNumber
    have hforks := hd.forks update hu
    cases update with
    | commit new ne =>
      obtain ⟨y, hy, -⟩ := canonical_target_mem hk hl hold hnew holds hn ne hanc
      simp [NewCanonicalChain.old] at hy
    | reorg new ne old =>
      -- the target is the last block of the new chain, and a block of the old one
      obtain ⟨y, hy, hyt⟩ := canonical_target_mem hk hl hold hnew holds hn ne hanc
      obtain ⟨⟨fork', hrises, -⟩, hdisjoint⟩ := hforks
      obtain ⟨x, hx, hxt⟩ := hrises.last
      exact hdisjoint x (List.mem_of_getLast? hx) y hy (hxt.trans hyt.symm)
  · intro hnot
    have hoff : s.Stored target → ¬ s.StoredAnc canonicalHead.hash target := fun hs hanc => hnot ⟨hs, hanc⟩
    have hstored : ∀ update, s.onNewHead canonicalHead target = some update → s.Stored target := by
      intro update hu
      obtain ⟨b, hb, -⟩ := sealedHeader_some.1 (onNewHead_stored hu).1
      exact ⟨b, hb⟩
    refine ⟨fun update hu => ?_, fun update hu => ?_, onNewHeadCounted_eq s canonicalHead target, ?_⟩
    · exact onNewHead_forks hk hl hhead hu (hoff (hstored update hu))
    · obtain ⟨-, hnews, holds⟩ := onNewHead_stored hu
      obtain ⟨fork, hold, hnew⟩ := onNewHead_segments hk hl hhead hu
      rw [NewCanonicalChain.reorgedBlockCount_eq]
      exact reorged_eq hk hl hold hnew holds hnews (onNewHead_disjoint hk hl hhead hu (hoff (hstored update hu)))
    · intro hs hmeets
      obtain ⟨b, hb⟩ := hs
      exact onNewHead_found hk hl hb (hmeets.link hk hl hhead hb (hoff ⟨b, hb⟩)) hhead hmeets

/-! ## Two blocks of the main branch, and one beside them -/

open Chain (twoBranches mainBlock sideBlock mainBlock_knows mainBlock_anc sideBlock_knows)

/-- block 2 of the main branch is the head, and block 1 of the side branch is stored -/
def forkRun : List Chain.Op :=
  [.insertBlock (mainBlock 1) none, .insertBlock (mainBlock 2) none, .insertBlock (sideBlock 1) none,
    .makeCanonical (mainBlock 2).hash]

def forked : Chain := Run.run Chain.step (Chain.launch twoBranches.genesis) forkRun

theorem forked_sound : Chain.Sound twoBranches forked := by
  have hops : Run.AllSteps Chain.step (fun c op => Chain.OpOk twoBranches c op ∧ Chain.OpFits twoBranches c op)
      (Chain.launch twoBranches.genesis) forkRun :=
    ⟨⟨⟨mainBlock_knows (by omega), mainBlock 0, by decide +kernel, rfl⟩, trivial⟩,
      ⟨⟨mainBlock_knows (by omega), mainBlock 1, by decide +kernel, rfl⟩, trivial⟩,
      ⟨⟨sideBlock_knows.1, mainBlock 0, by decide +kernel, rfl⟩, trivial⟩, ⟨trivial, trivial⟩, trivial⟩
  exact Run.run_invariant (I := Chain.Sound twoBranches) (fun _ _ h hok => h.step hok.1 hok.2)
    (Chain.sound_launch twoBranches) hops

/-- the side block is off the canonical chain -/
theorem onNewHead_diverging_iff_side : Diverging forked.state forked.head (sideBlock 1).hash := by
  have hs := forked_sound
  refine (onNewHead_diverging_iff hs.state.known hs.linked forked.head hs.head (sideBlock 1).hash).2 ?_
  rintro ⟨-, hanc⟩
  have hn := sideBlock_knows.1.hasNumber
  have hmain := mainBlock_anc (n := 2) (m := 1) (by omega) (by omega)
  have hhead : forked.head.hash = (mainBlock 2).hash := by decide +kernel
  have heq : (sideBlock 1).hash = (mainBlock 1).hash := by
    refine Ancestry.unique World.link_fun World.link_num (hhead ▸ hanc.anc hs.state.known hs.linked hn) hmain ?_
    rw [hn.num_eq, (mainBlock_knows (n := 1) (by omega)).hasNumber.num_eq]
    rfl
  exact absurd heq (by decide)

/-- **A reorg to an ancestor of the head.** With block 1 of the main branch as the target, below the head, the new chain
is that block, and the old chain is that block and the head. -/
theorem canonical_target_shared :
    (forked.state.Known twoBranches ∧ forked.state.Linked twoBranches ∧
      twoBranches.HasNumber forked.head.hash forked.head.number ∧ forked.state.Stored forked.head.hash) ∧
      (∃ new ne old, forked.state.onNewHead forked.head (mainBlock 1).hash = some (.reorg new ne old) ∧
        new.map (·.hash) = [(mainBlock 1).hash] ∧ old.map (·.hash) = [(mainBlock 1).hash, (mainBlock 2).hash]) ∧
      ¬ Diverging forked.state forked.head (mainBlock 1).hash := by
  have hs := forked_sound
  have hchains : (forked.state.onNewHead forked.head (mainBlock 1).hash).map
      (fun u : NewCanonicalChain => (u.new.map (·.hash), u.old.map (·.hash))) =
        some ([(mainBlock 1).hash], [(mainBlock 1).hash, (mainBlock 2).hash]) := by decide +kernel
  obtain ⟨update, hu, hlists⟩ := Option.map_eq_some_iff.1 hchains
  obtain ⟨hnew, hold⟩ := Prod.mk.inj hlists
  refine ⟨⟨hs.state.known, hs.linked, hs.head, ?_⟩, ?_⟩
  · exact sealedHeader_isSome.1 (by decide +kernel)
  · cases update with
    | commit new ne => cases hold
    | reorg new ne old =>
      refine ⟨⟨new, ne, old, hu, hnew, hold⟩, fun hd => ?_⟩
      simp only [NewCanonicalChain.new, NewCanonicalChain.old] at hnew hold
      have hin : (mainBlock 1).hash ∈ new.map (·.hash) := by
        rw [hnew]
        exact List.mem_cons_self
      have hin' : (mainBlock 1).hash ∈ old.map (·.hash) := by
        rw [hold]
        exact List.mem_cons_self
      obtain ⟨x, hx, hxh⟩ := List.mem_map.1 hin
      obtain ⟨y, hy, hyh⟩ := List.mem_map.1 hin'
      exact (hd.forks _ hu).2 x hx y hy (hxh.trans hyh.symm)

end ChainState

end Ress
