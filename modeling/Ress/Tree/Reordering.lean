/-
Blocks inserted in two orders.

`Extends` is the insertion of ready blocks one after another, each found valid, and a block that is stored after some of
these is `Insertable`. `Grown` says what has become of a tree while such blocks were inserted and heads made canonical.
Execution reads the codes, the parent's header and the hashes of the ancestors; all these are the same in two trees
that have grown from one, as long as no block was stored above one that can be inserted (`NoneAbove`).

- `Grown.verdict`: a block with a stored parent gets the same result in both trees.
- `Grown.insertable`, `Insertable.not_refused`: it is found valid if and only if it can be inserted.
- `Grown.makeCanonical_head`: making it canonical leads to the same head.
-/
import Ress.Tree.Handling
import Ress.Tree.NewHead

namespace Ress

namespace ChainState

variable {W : World} {s s' : ChainState}

/-! ## The traversal of `block_hash` in two states -/

/-- above the blocks that both states store they store the same -/
def SameParents (s s' : ChainState) : Prop :=
  ∀ h b, s.blocksByHash.get h = some b → s'.blocksByHash.get h = some b →
    s'.blocksByHash.get b.parentHash = s.blocksByHash.get b.parentHash

theorem get_none_of_not_stored {s : ChainState} {hash : B256} (h : ¬ s.Stored hash) :
    s.blocksByHash.get hash = none :=
  Option.eq_none_iff_forall_ne_some.2 fun b hb => h ⟨b, hb⟩

/-- what `block_hash` answers at the block where its traversal ends -/
def exhausted (s : ChainState) (ancestor : BlockNumHash) (number : ℕ) : Option B256 :=
  if number ≤ ancestor.number ∧ s.canonicalHashesByNumber.get ancestor.number = some ancestor.hash then
    s.canonicalHashesByNumber.get number
  else none

theorem ancestorWalk_congr (hs : SameParents s s') (number fuel : ℕ) {ancestor : BlockNumHash}
    (h : s'.blocksByHash.get ancestor.hash = s.blocksByHash.get ancestor.hash) :
    ancestorWalk s'.blocksByHash number fuel ancestor = ancestorWalk s.blocksByHash number fuel ancestor := by
  induction fuel generalizing ancestor with
  | zero => rfl
  | succ fuel ih =>
    simp only [ancestorWalk, h]
    cases hb : s.blocksByHash.get ancestor.hash with
    | none => rfl
    | some b =>
      have hparent := hs _ b hb (h.trans hb)
      have hnext := @ih b.parentNumHash hparent
      simp only [hnext]

/-- a traversal that has ended by itself takes no more steps -/
theorem ancestorWalk_more {blocks : FMap B256 Block} {number fuel : ℕ} {ancestor : BlockNumHash}
    {r : B256 ⊕ BlockNumHash} (h : ancestorWalk blocks number fuel ancestor = r)
    (hstop : ∀ stop, r = .inr stop → blocks.get stop.hash = none) (more : ℕ) :
    ancestorWalk blocks number (fuel + more) ancestor = r := by
  induction fuel generalizing ancestor with
  | zero =>
    have hnone := hstop ancestor h.symm
    rw [← h]
    cases more with
    | zero => rfl
    | succ more => simp only [ancestorWalk, hnone]
  | succ fuel ih =>
    rw [Nat.succ_add]
    simp only [ancestorWalk] at h ⊢
    cases hb : blocks.get ancestor.hash with
    | none =>
      simp only [hb] at h
      exact h
    | some b =>
      simp only [hb] at h ⊢
      split_ifs at h ⊢
      · exact h
      · exact ih h

theorem StoredAnc.congr (hs : SameParents s s') {d a : B256} (h : s.StoredAnc d a)
    (hd : s'.blocksByHash.get d = s.blocksByHash.get d) : s'.StoredAnc d a := by
  induction h using Relation.ReflTransGen.head_induction_on with
  | refl => exact Relation.ReflTransGen.refl
  | head hlink _ ih =>
    obtain ⟨b, hb, rfl⟩ := hlink
    have hparent := hs _ b hb (hd.trans hb)
    exact (ih hparent).head ⟨b, hd.trans hb, rfl⟩

/-- a stored block with a stored parent can be made canonical exactly where its chain meets that of the head -/
theorem onNewHead_isSome_meets (hk : s.Known W) (hl : s.Linked W) {canonicalHead : BlockNumHash} {newHead : B256}
    {b : Block} (hb : s.blocksByHash.get newHead = some b) (hp : s.Stored b.parentHash)
    (hhead : W.HasNumber canonicalHead.hash canonicalHead.number) :
    (s.onNewHead canonicalHead newHead).isSome = true ↔ s.Meets newHead canonicalHead.hash := by
  rw [onNewHead_isSome_iff hk hl hhead]
  exact ⟨fun h => h.2.2, fun h => ⟨⟨b, hb⟩, (hl.link_of_stored hk hb hp).ne_genesis, h⟩⟩

end ChainState

namespace Chain

open ChainState (SameParents Segment)

variable {W : World} {c c' : Chain}

/-- **Block hashes in two states.** The answers agree where the ancestors do and the canonical maps say the same at the
block where the stored ancestors end. -/
theorem Sound.blockHash_congr (h : Sound W c) (h' : Sound W c') (hs : SameParents c.state c'.state)
    (parent : BlockNumHash) (hp : c'.state.blocksByHash.get parent.hash = c.state.blocksByHash.get parent.hash)
    (number : ℕ) (hends : ∀ a : BlockNumHash, c.state.blocksByHash.get a.hash = none →
      c'.state.blocksByHash.get a.hash = none → c'.state.exhausted a number = c.state.exhausted a number) :
    c'.state.blockHash parent number = c.state.blockHash parent number := by
  have hstop := h.walk_complete number parent
  have hstop' := h'.walk_complete number parent
  unfold ChainState.blockHash
  generalize hw : ChainState.ancestorWalk c.state.blocksByHash number (c.state.blocksByHash.keys.card + 1) parent = r
    at hstop
  generalize hw' : ChainState.ancestorWalk c'.state.blocksByHash number (c'.state.blocksByHash.keys.card + 1) parent = r'
    at hstop'
  -- with the steps of both, both walk alike
  have hmore := ChainState.ancestorWalk_more hw (fun stop hr => hstop stop hr) (c'.state.blocksByHash.keys.card + 1)
  have hmore' := ChainState.ancestorWalk_more hw' (fun stop hr => hstop' stop hr) (c.state.blocksByHash.keys.card + 1)
  rw [Nat.add_comm, ChainState.ancestorWalk_congr hs number _ hp, hmore] at hmore'
  subst hmore'
  cases r with
  | inl hash => rfl
  | inr stop => exact hends stop (hstop stop rfl) (hstop' stop rfl)

/-- **Making a block canonical changes no block hash answer**: at and below a canonical block that is not stored the
canonical map stays as it is. -/
theorem Sound.makeCanonical_exhausted (h : Sound W c) (target : B256) {a : BlockNumHash}
    (ha : c.state.blocksByHash.get a.hash = none) (number : ℕ) :
    (c.makeCanonical target).state.exhausted a number = c.state.exhausted a number := by
  unfold Chain.makeCanonical
  cases hu : c.state.onNewHead c.head target with
  | none => rfl
  | some update =>
    obtain ⟨-, hnewStored, holdStored⟩ := ChainState.onNewHead_stored hu
    obtain ⟨fork, hold, hnew⟩ := ChainState.onNewHead_segments h.state.known h.linked h.head hu
    have hstored : ∀ l, c.state.AllStored l → ∀ x ∈ l, x.hash ≠ a.hash := by
      rintro l hl x hx heq
      obtain ⟨k, hk⟩ := hl x hx
      obtain ⟨b, hb, -⟩ := ChainState.sealedHeader_some.1 hk
      rw [← (h.state.header hk).1, heq, ha] at hb
      cases hb
    show (c.state.onChainUpdate update.new update.old).exhausted a number = c.state.exhausted a number
    unfold ChainState.exhausted
    by_cases hcanon : c.state.canonicalHashesByNumber.get a.number = some a.hash
    · -- the block lies at or below the fork: between fork and head all are stored
      have hfork : a.number ≤ W.num fork := by
        by_contra hlt
        have hle : a.number ≤ W.num c.head.hash := by
          rw [h.head.num_eq]
          exact h.entry_le hcanon
        obtain ⟨y, hy, hyn⟩ := Segment.exists_number h.state.known hold holdStored (not_le.1 hlt) hle
        obtain ⟨k, hk⟩ := holdStored y hy
        have hynum := (h.state.header hk).2.hasNumber.num_eq
        have heq : y.hash = a.hash := Ancestry.unique World.link_fun World.link_num
          (hold.mem_anc _ (List.mem_map_of_mem hy)) (h.canonAnc _ _ hcanon)
          (by rw [hynum, hyn, (h.state.canon _ _ hcanon).num_eq])
        exact hstored _ holdStored y hy heq
      have habove : ∀ n ≤ a.number, (c.state.onChainUpdate update.new update.old).canonicalHashesByNumber.get n =
          c.state.canonicalHashesByNumber.get n := by
        intro n hn
        apply ChainState.onChainUpdate_other
        · intro x hx
          have := Segment.number_lt h.state.known hnew hnewStored x hx
          omega
        · intro x hx
          have := Segment.number_lt h.state.known hold holdStored x hx
          omega
      rw [habove a.number le_rfl]
      by_cases hn : number ≤ a.number
      · rw [habove number hn]
      · rw [if_neg fun hc => hn hc.1, if_neg fun hc => hn hc.1]
    · have hafter : (c.state.onChainUpdate update.new update.old).canonicalHashesByNumber.get a.number ≠
          some a.hash := by
        intro heq
        rcases ChainState.onChainUpdate_get heq with ⟨x, hx, -, hxa⟩ | ⟨-, hbefore, -⟩
        · exact hstored _ hnewStored x hx hxa
        · exact hcanon hbefore
      rw [if_neg fun hc => hafter hc.2, if_neg fun hc => hcanon hc.2]

end Chain

namespace BlockBuffer

/-- the block is in the buffer with this witness, and ready -/
structure Holds (β : BlockBuffer) (x : Block × ExecutionWitness) : Prop where
  block : β.blocks.get x.1.hash = some x.1
  witness : β.witnesses.get x.1.hash = some x.2
  complete : β.missing x.1.hash = ∅

variable {β β' : BlockBuffer} {x y : Block × ExecutionWitness}

theorem Holds.unique (hx : β.Holds x) (hy : β.Holds y) (h : x.1.hash = y.1.hash) : x = y := by
  have hblock := hx.block
  have hwitness := hx.witness
  rw [h, hy.block] at hblock
  rw [h, hy.witness] at hwitness
  exact Prod.ext (Option.some.inj hblock).symm (Option.some.inj hwitness).symm

theorem Holds.same (h : β.Holds x) (h' : β'.Holds x) :
    SameAt x.1.hash β β' :=
  ⟨h'.block.trans h.block.symm, h'.witness.trans h.witness.symm, h'.complete.trans h.complete.symm⟩

theorem SameAt.holds (h : SameAt x.1.hash β β') (hx : β.Holds x) : β'.Holds x :=
  ⟨h.block.trans hx.block, h.witness.trans hx.witness, h.missing.trans hx.complete⟩

end BlockBuffer

namespace EngineTree

open BlockBuffer (Holds SameAt)
open StateRoot (StorageTrieMap)
open Writes (Agrees)

variable {E : Env} {t t' : EngineTree E} {sched sched' : StateRoot.Schedule}

/-! ## One insertion in two trees -/

theorem stored_of_header {hash : B256} {x : SealedHeader} (h : t.provider.sealedHeader hash = some x) :
    t.Stored hash :=
  ChainState.sealedHeader_isSome.1 (Option.isSome_iff_exists.2 ⟨x, h⟩)

/-- an error of the provider, as that of the state root computation -/
def ProviderError (kind : InsertBlockErrorKind) : Prop := ∃ error, kind = .provider error

/-- execution reads the codes and the hashes of the ancestors, and nothing else of the tree -/
theorem executeBlock_agrees {b : Block} (hmap : StorageTrieMap E)
    (hdatabase : t'.provider.database = t.provider.database)
    (hhashes : ∀ number, t'.provider.blockHash b.parentNumHash number = t.provider.blockHash b.parentNumHash number)
    (parent : SealedHeader) (w : ExecutionWitness) :
    Agrees ProviderError (t.executeBlock sched b parent w) (t'.executeBlock sched' b parent w) := by
  have hreads : ∀ trie, (⟨t'.provider, b.parentNumHash, trie⟩ : WitnessDatabase E).toDatabase =
      (⟨t.provider, b.parentNumHash, trie⟩ : WitnessDatabase E).toDatabase := by
    intro trie
    have hcode : ∀ codeHash, t'.provider.getBytecode codeHash = t.provider.getBytecode codeHash := by
      intro codeHash
      simp only [RessProvider.getBytecode, hdatabase]
    simp only [WitnessDatabase.toDatabase, Database.mk.injEq]
    refine ⟨rfl, rfl, ?_, ?_⟩
    · funext codeHash
      simp only [WitnessDatabase.codeByHash, hcode]
    · funext number
      simp only [WitnessDatabase.blockHash, hhashes]
  have hexecute : ∀ trie, BlockExecutor.execute E ⟨t'.provider, b.parentNumHash, trie⟩ b =
      BlockExecutor.execute E ⟨t.provider, b.parentNumHash, trie⟩ b := by
    intro trie
    simp only [BlockExecutor.execute, hreads]
  simp only [executeBlock, hexecute]
  refine (Agrees.refl _ _).bind fun trie => (Agrees.refl _ _).bind fun executed => (Agrees.refl _ _).bind fun _ => ?_
  have hroots := StateRoot.calculateStateRoot_agrees hmap sched sched' trie (E.evm.fromBundleState executed.2)
  exact (hroots.mapError fun error _ => ⟨.trieWitnessError error, rfl⟩).bind fun _ => Agrees.refl _ _

/-- a new block with a stored parent is judged by its parent's header and its execution -/
theorem insertBlock_agrees {b : Block} {w : ExecutionWitness} (hb : ¬ t.Stored b.hash) (hb' : ¬ t'.Stored b.hash)
    (hp : t.Stored b.parentHash)
    (hparent : t'.provider.sealedHeader b.parentHash = t.provider.sealedHeader b.parentHash)
    (hexecute : ∀ parent, Agrees ProviderError (t.executeBlock sched b parent w) (t'.executeBlock sched' b parent w)) :
    Agrees ProviderError (t.insertBlock sched b (some w)).1 (t'.insertBlock sched' b (some w)).1 := by
  have hnew : ¬ (t.provider.sealedHeader b.hash).isSome = true := fun h => hb (ChainState.sealedHeader_isSome.1 h)
  have hnew' : ¬ (t'.provider.sealedHeader b.hash).isSome = true := fun h => hb' (ChainState.sealedHeader_isSome.1 h)
  simp only [insertBlock, tryInsertBlock, if_neg hnew, if_neg hnew', hparent]
  cases validateBlock E b with
  | error error => exact Agrees.refl _ _
  | ok _ =>
    cases hg : t.provider.sealedHeader b.parentHash with
    | none => exact absurd hp (ChainState.sealedHeader_none.1 hg)
    | some parent =>
      simp only
      cases E.consensus.validateHeaderAgainstParent b.toSealedHeader { parent with hash := b.parentHash } with
      | error error => exact Agrees.refl _ _
      | ok _ =>
        rcases hexecute parent with hsame | ⟨⟨kind, hk, hprovider⟩, kind', hk', hprovider'⟩
        · simp only [hsame]
          cases t.executeBlock sched b parent w with
          | error kind => exact Agrees.refl _ _
          | ok _ => exact Agrees.refl _ _
        · simp only [hk, hk']
          exact Or.inr ⟨⟨kind, rfl, hprovider⟩, kind', rfl, hprovider'⟩

/-! ## Blocks that can be inserted -/

/-- ready blocks of the buffer of `t₀` have been inserted, one after another, and each was found valid -/
inductive Extends (sched : StateRoot.Schedule) (t₀ : EngineTree E) : EngineTree E → Prop
  | start : Extends sched t₀ t₀
  | insert {t : EngineTree E} {x : Block × ExecutionWitness} (h : Extends sched t₀ t) (hx : t₀.blockBuffer.Holds x)
      (hv : (t.insertBlock sched x.1 (some x.2)).1 = .ok (.inserted .valid)) :
      Extends sched t₀ (t.insertBlock sched x.1 (some x.2)).2

/-- a block that is not stored, and is after some of these insertions -/
def Insertable (sched : StateRoot.Schedule) (t₀ : EngineTree E) (hash : B256) : Prop :=
  ¬ t₀.Stored hash ∧ ∃ t, Extends sched t₀ t ∧ t.Stored hash

/-- no stored block descends from a block that can be inserted -/
def NoneAbove (W : World) (sched : StateRoot.Schedule) (t₀ : EngineTree E) : Prop :=
  ∀ s q, t₀.Stored s → Insertable sched t₀ q → ¬ W.Descends s q

/-- what has become of `t₀` while blocks that can be inserted were, and heads made canonical -/
structure Grown (W : World) (sched : StateRoot.Schedule) (t₀ t : EngineTree E) : Prop where
  sound : Chain.Sound W t.chain
  database : t.provider.database = t₀.provider.database
  tracker : t.forkchoiceStateTracker = t₀.forkchoiceStateTracker
  keeps : ∀ h b, t₀.provider.chainState.blocksByHash.get h = some b → t.provider.chainState.blocksByHash.get h = some b
  new : ∀ h b, t.provider.chainState.blocksByHash.get h = some b →
    t₀.provider.chainState.blocksByHash.get h = some b ∨
      Insertable sched t₀ h ∧ t₀.blockBuffer.blocks.get h = some b ∧ t.Stored b.parentHash
  ends : ∀ a : BlockNumHash, t.provider.chainState.blocksByHash.get a.hash = none →
    ∀ number, t.provider.chainState.exhausted a number = t₀.provider.chainState.exhausted a number

variable {W : World} {t₀ : EngineTree E} {x : Block × ExecutionWitness}

theorem Grown.start (h : Chain.Sound W t₀.chain) : Grown W sched t₀ t₀ :=
  ⟨h, rfl, rfl, fun _ _ h => h, fun _ _ h => Or.inl h, fun _ _ _ => rfl⟩

theorem Grown.stored (g : Grown W sched t₀ t) {h : B256} (hs : t₀.Stored h) : t.Stored h := by
  obtain ⟨b, hb⟩ := hs
  exact ⟨b, g.keeps h b hb⟩

/-- a hash stands for one block -/
theorem Grown.same (g : Grown W sched t₀ t) (g' : Grown W sched t₀ t') {h : B256} (hs : t.Stored h)
    (hs' : t'.Stored h) :
    t'.provider.chainState.blocksByHash.get h = t.provider.chainState.blocksByHash.get h := by
  obtain ⟨b, hb⟩ := hs
  obtain ⟨b', hb'⟩ := hs'
  rcases g.new h b hb with hold | ⟨hins, hbuffer, -⟩
  · rw [hb, g'.keeps h b hold]
  · rcases g'.new h b' hb' with hold | ⟨-, hbuffer', -⟩
    · exact absurd ⟨b', hold⟩ hins.1
    · rw [hb, hb', ← hbuffer, ← hbuffer']

/-- **Ancestors agree.** A block that can be inserted has its parent stored once it is; the parents of the others are
not among those that can be inserted. -/
theorem Grown.parents (g : Grown W sched t₀ t) (g' : Grown W sched t₀ t') (habove : NoneAbove W sched t₀) :
    ChainState.SameParents t.provider.chainState t'.provider.chainState := by
  have hold : ∀ {s : EngineTree E}, Grown W sched t₀ s → ∀ h b,
      t₀.provider.chainState.blocksByHash.get h = some b → ¬ t₀.Stored b.parentHash → ¬ s.Stored b.parentHash := by
    rintro s gs h b hb hnot ⟨p, hp⟩
    rcases gs.new _ p hp with hp₀ | ⟨hins, -, -⟩
    · exact hnot ⟨p, hp₀⟩
    · obtain ⟨hbh, hbk⟩ := gs.sound.state.known h b (gs.keeps h b hb)
      subst hbh
      exact habove _ _ ⟨b, hb⟩ hins (Relation.ReflTransGen.single ⟨b.toSealedHeader, hbk, rfl⟩)
  intro h b hb hb'
  rcases g.new h b hb with hb₀ | ⟨hins, -, hp⟩
  · by_cases hp₀ : t₀.Stored b.parentHash
    · exact g.same g' (g.stored hp₀) (g'.stored hp₀)
    · rw [ChainState.get_none_of_not_stored (hold g h b hb₀ hp₀), ChainState.get_none_of_not_stored (hold g' h b hb₀ hp₀)]
  · rcases g'.new h b hb' with hb₀ | ⟨-, -, hp'⟩
    · exact absurd ⟨b, hb₀⟩ hins.1
    · exact g.same g' hp hp'

/-- **One verdict.** A block whose parent is stored gets the same result in whatever order other blocks have been
inserted before it. -/
theorem Grown.verdict (g : Grown W sched t₀ t) (g' : Grown W sched t₀ t') (habove : NoneAbove W sched t₀)
    (hmap : StorageTrieMap E) {b : Block} {w : ExecutionWitness} (hb : ¬ t.Stored b.hash)
    (hb' : ¬ t'.Stored b.hash) (hp : t.Stored b.parentHash) (hp' : t'.Stored b.parentHash) :
    Agrees ProviderError (t.insertBlock sched b (some w)).1 (t'.insertBlock sched' b (some w)).1 := by
  have hsame := g.same g' hp hp'
  refine insertBlock_agrees hb hb' hp ?_ fun parent => executeBlock_agrees hmap ?_ ?_ parent w
  · simp only [RessProvider.sealedHeader, ChainState.sealedHeader, hsame]
  · rw [g'.database, g.database]
  · intro number
    exact g.sound.blockHash_congr g'.sound (g.parents g' habove) b.parentNumHash hsame number fun a ha ha' =>
      (g'.ends a ha' number).trans (g.ends a ha number).symm

theorem Inserts.seen {b : Block} {mw : Option ExecutionWitness} {r : Except InsertBlockErrorKind InsertPayloadOk}
    (hi : Inserts t b mw r t') (hs : t.Stored b.hash) : r = .ok .alreadySeen := by
  cases hi with
  | alreadySeen => rfl
  | refused _ hnew => exact absurd hs hnew
  | disconnected _ _ hnew => exact absurd hs hnew
  | noWitness _ hnew => exact absurd hs hnew
  | valid _ _ hnew => exact absurd hs hnew

/-- a block whose parent was stored before is inserted with the result that it had before -/
theorem Grown.sameResult (g : Grown W sched t₀ t) (hsound : Chain.Sound W t₀.chain) (habove : NoneAbove W sched t₀)
    (hmap : StorageTrieMap E) {b : Block} {w : ExecutionWitness} (hb : t.Stored b.hash → t₀.Stored b.hash)
    (hp : t₀.Stored b.parentHash) :
    Agrees ProviderError (t₀.insertBlock sched b (some w)).1 (t.insertBlock sched' b (some w)).1 := by
  by_cases hs : t₀.Stored b.hash
  · rw [(insertBlock_inserts t sched' b (some w)).seen (g.stored hs), (insertBlock_inserts t₀ sched b (some w)).seen hs]
    exact Agrees.refl _ _
  · exact (Grown.start hsound).verdict g habove hmap hs (fun h => hs (hb h)) hp (g.stored hp)

theorem Grown.makeCanonical (g : Grown W sched t₀ t) (target : B256) : Grown W sched t₀ (t.makeCanonical target) := by
  obtain ⟨-, hdatabase, -, -, hblocks⟩ := makeCanonical_frame t target
  have hchain := makeCanonical_chain t target
  refine ⟨?_, hdatabase.trans g.database, (makeCanonical_tracker t target).trans g.tracker, ?_, ?_, ?_⟩
  · rw [hchain]
    exact g.sound.makeCanonical target
  · rw [hblocks]
    exact g.keeps
  · intro h b hb
    rw [hblocks] at hb
    refine (g.new h b hb).imp id fun ⟨hins, hbuffer, p, hp⟩ => ⟨hins, hbuffer, p, ?_⟩
    rw [hblocks]
    exact hp
  · intro a ha number
    rw [hblocks] at ha
    have hsame := g.sound.makeCanonical_exhausted target ha number
    rw [← hchain] at hsame
    exact hsame.trans (g.ends a ha number)

/-- the tree after the insertion of a block that was found valid -/
theorem Grown.valid (g : Grown W sched t₀ t) (hbuffer : t₀.blockBuffer.Known W) (hx : t₀.blockBuffer.Holds x)
    (hins : Insertable sched t₀ x.1.hash) (hi : Inserts t x.1 (some x.2) (.ok (.inserted .valid)) t') :
    Grown W sched t₀ t' := by
  cases hi with
  | valid w hmw hnew hp event =>
    have hknown := (hbuffer.blocks _ _ hx.block).2
    have hne : ∀ h b, t.provider.chainState.blocksByHash.get h = some b → h ≠ x.1.hash := by
      rintro h b hb rfl
      exact hnew ⟨b, hb⟩
    obtain ⟨p, hparent, hnumber⟩ := hp
    have hsound : Chain.Sound W ⟨t.chain.state.insertBlock x.1 (some w.stateWitness), t.chain.head⟩ :=
      g.sound.insertBlock ⟨hknown, p, hparent, hnumber⟩
    refine ⟨hsound, g.database, g.tracker, ?_, ?_, ?_⟩
    · intro h b hb
      have hold := g.keeps h b hb
      exact (FMap.get_set_ne _ _ (hne h b hold)).trans hold
    · intro h b hb
      change (t.provider.chainState.blocksByHash.set x.1.hash x.1).get h = some b at hb
      rw [FMap.get_set] at hb
      split_ifs at hb with hh
      · cases hb
        subst hh
        exact Or.inr ⟨hins, hx.block, ChainState.stored_insertBlock.2 (Or.inr ⟨p, hparent⟩)⟩
      · rcases g.new h b hb with hold | ⟨hi, hb, hp⟩
        · exact Or.inl hold
        · exact Or.inr ⟨hi, hb, ChainState.stored_insertBlock.2 (Or.inr hp)⟩
    · intro a ha number
      change (t.provider.chainState.blocksByHash.set x.1.hash x.1).get a.hash = none at ha
      rw [FMap.get_set] at ha
      split_ifs at ha
      exact g.ends a ha number

/-- the store, the head and the tracker are all that counts -/
theorem Grown.congr (g : Grown W sched t₀ t) (hprovider : t'.provider = t.provider)
    (hhead : t'.canonicalHead = t.canonicalHead) (htracker : t'.forkchoiceStateTracker = t.forkchoiceStateTracker) :
    Grown W sched t₀ t' := by
  have hchain : t'.chain = t.chain := by
    unfold chain
    rw [hprovider, hhead]
  refine ⟨?_, ?_, htracker.trans g.tracker, ?_, ?_, ?_⟩
  · rw [hchain]
    exact g.sound
  · rw [hprovider]
    exact g.database
  · rw [hprovider]
    exact g.keeps
  · unfold Stored
    rw [hprovider]
    exact g.new
  · rw [hprovider]
    exact g.ends

/-- an insertion that stores no block -/
theorem Grown.notValid (g : Grown W sched t₀ t) {mw : Option ExecutionWitness} {b : Block}
    {r : Except InsertBlockErrorKind InsertPayloadOk} (hi : Inserts t b mw r t') (hr : r ≠ .ok (.inserted .valid)) :
    Grown W sched t₀ t' := by
  cases hi with
  | valid => exact absurd rfl hr
  | _ => exact g.congr rfl rfl rfl

theorem Extends.grown (h : Extends sched t₀ t) (hsound : Chain.Sound W t₀.chain) (hbuffer : t₀.blockBuffer.Known W) :
    Grown W sched t₀ t := by
  induction h with
  | start => exact Grown.start hsound
  | @insert t x hs hx hv ih =>
    have hi := insertBlock_inserts t sched x.1 (some x.2)
    have hnew : ¬ t₀.Stored x.1.hash := by
      intro hold
      obtain ⟨w, -, hvalid⟩ := insertBlock_valid hv
      exact hvalid.1 (ih.stored hold)
    rw [hv] at hi
    have hins : Insertable sched t₀ x.1.hash := ⟨hnew, _, Extends.insert hs hx hv, hi.stored (Or.inl rfl)⟩
    exact ih.valid hbuffer hx hins hi

/-- a block that can be inserted was found valid in one of those trees -/
theorem Insertable.inserted {hash : B256} (h : Insertable sched t₀ hash) :
    ∃ t x, Extends sched t₀ t ∧ t₀.blockBuffer.Holds x ∧ x.1.hash = hash ∧
      (t.insertBlock sched x.1 (some x.2)).1 = .ok (.inserted .valid) := by
  obtain ⟨hnew, t, hext, hs⟩ := h
  induction hext with
  | start => exact absurd hs hnew
  | @insert t x hext hx hv ih =>
    rcases (insertBlock_inserts t sched x.1 (some x.2)).storedHashes_sub.2 hs with rfl | hold
    · exact ⟨t, x, hext, hx, rfl, hv⟩
    · exact ih hold

section Judged

variable (hsound : Chain.Sound W t₀.chain) (hbuffer : t₀.blockBuffer.Known W) (habove : NoneAbove W sched t₀)
  (hmap : StorageTrieMap E)

include hsound hbuffer habove hmap

/-- a block that can be inserted is never refused -/
theorem Insertable.not_refused (hins : Insertable sched t₀ x.1.hash) (g : Grown W sched t₀ t)
    (hx : t₀.blockBuffer.Holds x) (kind : InsertBlockErrorKind) :
    (t.insertBlock sched' x.1 (some x.2)).1 ≠ .error kind := by
  intro herror
  obtain ⟨s, y, hext, hy, hyx, hv⟩ := hins.inserted
  cases hy.unique hx hyx
  obtain ⟨w, -, hnew, hvalidate, parent, hparent, -⟩ := insertBlock_valid hv
  obtain ⟨hnew', hrefused⟩ := insertBlock_error herror
  rcases hrefused with ⟨error, hfails, -⟩ | ⟨-, parent', hparent', -⟩
  · cases hvalidate.symm.trans hfails
  · have hagrees : Agrees ProviderError (s.insertBlock sched x.1 (some x.2)).1 (t.insertBlock sched' x.1 (some x.2)).1 :=
      (hext.grown hsound hbuffer).verdict g habove hmap hnew hnew' (stored_of_header hparent) (stored_of_header hparent')
    cases herror.symm.trans (hagrees.ok hv)

/-- and a block that is found valid can be inserted -/
theorem Grown.insertable (g : Grown W sched t₀ t) (hx : t₀.blockBuffer.Holds x)
    (hv : (t.insertBlock sched' x.1 (some x.2)).1 = .ok (.inserted .valid)) : Insertable sched t₀ x.1.hash := by
  obtain ⟨w, -, hnew, -, parent, hparent, -⟩ := insertBlock_valid hv
  have hp : t.Stored x.1.parentHash := stored_of_header hparent
  have hnew₀ : ¬ t₀.Stored x.1.hash := fun hold => hnew (g.stored hold)
  -- a tree that has the parent
  obtain ⟨s, hext, hs⟩ : ∃ s, Extends sched t₀ s ∧ s.Stored x.1.parentHash := by
    obtain ⟨p, hg⟩ := hp
    rcases g.new _ p hg with hold | ⟨⟨-, s, hext, hs⟩, -⟩
    · exact ⟨t₀, Extends.start, p, hold⟩
    · exact ⟨s, hext, hs⟩
  by_cases hstored : s.Stored x.1.hash
  · exact ⟨hnew₀, s, hext, hstored⟩
  · have hagrees : Agrees ProviderError (s.insertBlock sched x.1 (some x.2)).1 (t.insertBlock sched' x.1 (some x.2)).1 :=
      (hext.grown hsound hbuffer).verdict g habove hmap hstored hnew hs hp
    have hv' := hagrees.symm.ok hv
    have hi := insertBlock_inserts s sched x.1 (some x.2)
    rw [hv'] at hi
    exact ⟨hnew₀, _, Extends.insert hext hx hv', hi.stored (Or.inl rfl)⟩

end Judged

/-! ## The head -/

/-- a new block can be made canonical exactly where its chain meets that of the head -/
theorem Grown.onNewHead_isSome (g : Grown W sched t₀ t) {h : B256} (hnew : ¬ t₀.Stored h) (hs : t.Stored h) :
    (t.onNewHead h).isSome = true ↔ t.provider.chainState.Meets h t.canonicalHead.hash := by
  obtain ⟨b, hb⟩ := hs
  rcases g.new h b hb with hold | ⟨-, -, hp⟩
  · exact absurd ⟨b, hold⟩ hnew
  · exact ChainState.onNewHead_isSome_meets g.sound.state.known g.sound.linked hb hp g.sound.head

/-- chains that meet in one tree meet in the other -/
theorem Grown.meets (g : Grown W sched t₀ t) (g' : Grown W sched t₀ t') (habove : NoneAbove W sched t₀) {h k : B256}
    (hs : t.Stored h) (hs' : t'.Stored h) (hk : t₀.Stored k) (hm : t.provider.chainState.Meets h k) :
    t'.provider.chainState.Meets h k := by
  obtain ⟨fork, hleft, hright⟩ := hm
  have hparents := g.parents g' habove
  exact ⟨fork, hleft.congr hparents (g.same g' hs hs'), hright.congr hparents (g.same g' (g.stored hk) (g'.stored hk))⟩

/-- **Making a new block canonical** leads to the same head in whatever order blocks have been inserted before. -/
theorem Grown.makeCanonical_head (g : Grown W sched t₀ t) (g' : Grown W sched t₀ t') (habove : NoneAbove W sched t₀)
    (hhead : t'.canonicalHead = t.canonicalHead) (hstored : t₀.Stored t.canonicalHead.hash) {h : B256}
    (hnew : ¬ t₀.Stored h) (hs : t.Stored h) (hs' : t'.Stored h) :
    (t'.makeCanonical h).canonicalHead = (t.makeCanonical h).canonicalHead := by
  have hsame := g.same g' hs hs'
  have hiff : (t'.onNewHead h).isSome = true ↔ (t.onNewHead h).isSome = true := by
    rw [g'.onNewHead_isSome hnew hs', g.onNewHead_isSome hnew hs, hhead]
    exact ⟨g'.meets g habove hs' hs hstored, g.meets g' habove hs hs' hstored⟩
  have htip : ∀ {s : EngineTree E} {update : NewCanonicalChain}, s.onNewHead h = some update →
      (s.makeCanonical h).canonicalHead = update.tip.numHash ∧
        s.provider.chainState.sealedHeader h = some update.tip := by
    intro s update hu
    refine ⟨?_, (ChainState.onNewHead_stored hu).1⟩
    simp only [EngineTree.makeCanonical, hu]
    rfl
  cases hu : t.onNewHead h with
  | none =>
    cases hu' : t'.onNewHead h with
    | none =>
      simp only [EngineTree.makeCanonical, hu, hu']
      exact hhead
    | some update => rw [hu, hu'] at hiff; cases hiff.1 rfl
  | some update =>
    cases hu' : t'.onNewHead h with
    | none => rw [hu, hu'] at hiff; cases hiff.2 rfl
    | some update' =>
      obtain ⟨hnext, hheader⟩ := htip hu
      obtain ⟨hnext', hheader'⟩ := htip hu'
      simp only [ChainState.sealedHeader, hsame] at hheader hheader'
      rw [hnext, hnext', Option.some.inj (hheader.symm.trans hheader')]

end EngineTree

end Ress
