/-
What a forkchoice update promises when it answers VALID: the requested hashes are on the canonical chain.

There are three exits with this answer. At the first the head is the canonical head, and the canonical map has it
(`Headed`). At the second `on_new_head` has found a chain update, which is applied before finalization. The third only
asks whether the head is stored; it is taken exactly where the head is genesis or its chain does not meet the canonical
chain in the store (`ChainState.onNewHead_isSome_iff`), because finalization has pruned a fork under its blocks.

- `UpdateOk`: the stored head is not genesis, its chain meets the canonical chain, and the finalized block is not so far
  up that finalization prunes the entry of the head or of the safe block.
- `runs_forkchoice_valid`: in every run whose steps meet this, every such update that answers VALID is right.
- `forkchoice_valid_sideBlock`: a head beside the canonical chain.
-/
import Ress.Tree.NewHead

namespace Ress

namespace Chain

variable {W : World} {c : Chain}

/-! ## The head is canonical -/

/-- stored blocks are linked to their parents, and the head is the canonical entry at its height -/
structure Headed (W : World) (c : Chain) : Prop extends Wf W c where
  linked : c.state.Linked W
  headCanon : c.state.canonicalHashesByNumber.get c.head.number = some c.head.hash

theorem Coherent.headed (h : Coherent W c) : Headed W c := ⟨h.toWf, h.linked, h.headCanon⟩

theorem headed_launch (W : World) : Headed W (launch W.genesis) := (coherent_launch W).headed

theorem Headed.insertBlock {b : Block} {w : Option (List Bytes)} (h : Headed W c) (hb : Child W c.state b) :
    Headed W { c with state := c.state.insertBlock b w } :=
  ⟨⟨h.state.insertBlock hb.known, h.head⟩, fun _ _ hx => h.linked.set (hb.link h.state) hx, h.headCanon⟩

theorem Headed.onCanonicalChainUpdate {target : B256} {update : NewCanonicalChain} (h : Headed W c)
    (hu : c.state.onNewHead c.head target = some update) : Headed W (c.onCanonicalChainUpdate update) := by
  refine ⟨h.toWf.onCanonicalChainUpdate hu, fun k b hb => ?_, ChainState.onChainUpdate_tip update c.state⟩
  rw [onCanonicalChainUpdate_blocks] at hb
  exact h.linked k b hb

theorem Headed.makeCanonical (h : Headed W c) (target : B256) : Headed W (c.makeCanonical target) := by
  unfold Chain.makeCanonical
  split
  · rename_i update hu
    exact h.onCanonicalChainUpdate hu
  · exact h

theorem Headed.onFinalizedBlock {b : Block} {l : List SealedHeader} (h : Headed W c) (hd : Delivered W b l) :
    Headed W (c.onFinalizedBlock b l) := by
  refine ⟨h.toWf.onFinalizedBlock hd.known fun x hx => (hd.linked.mem x hx).1, fun k x hx => ?_, hd.headCanon c⟩
  rw [onFinalizedBlock_blocks] at hx
  exact h.linked.set hd.link hx

/-- finalization keeps the head's entry if the finalized block is not too far above it -/
theorem Headed.removeBlocksOnFinalized (h : Headed W c) {hash : B256}
    (hle : ∀ f, c.state.blocksByHash.get hash = some f → f.number ≤ c.head.number + 256) :
    Headed W { c with state := c.state.removeBlocksOnFinalized hash } :=
  ⟨⟨h.state.removeBlocksOnFinalized hash, h.head⟩,
    fun k b hb => h.linked k b (ChainState.removeBlocksOnFinalized_block hb),
    (ChainState.removeBlocksOnFinalized_keepsEntry hle).trans h.headCanon⟩

end Chain

namespace EngineTree

variable {E : Env} {W : World} {t t' : EngineTree E}

/-! ## What the answer VALID promises -/

/-- the requested hashes are on the tracked canonical chain -/
structure OnCanonicalChain (W : World) (t : EngineTree E) (state : ForkchoiceState) : Prop where
  head : t.provider.chainState.IsHashCanonical state.headBlockHash
  descends : W.Descends t.canonicalHead.hash state.headBlockHash
  consistent : t.Consistent state

def AnswersValid (answer : UpdateAnswer) : Prop :=
  ∃ latestValidHash event, answer = .ok ⟨.valid ⟨.valid, latestValidHash⟩, event⟩

/-- the finalized block, if it is given and stored, is at most 256 blocks above the head, and above the safe block if
that is given: finalization keeps canonical entries that far down -/
def PrunesNeither (W : World) (t : EngineTree E) (state : ForkchoiceState) : Prop :=
  state.finalizedBlockHash ≠ 0 → ∀ f, t.provider.chainState.blocksByHash.get state.finalizedBlockHash = some f →
    f.number ≤ W.num state.headBlockHash + 256 ∧
      (state.safeBlockHash ≠ 0 → f.number ≤ W.num state.safeBlockHash + 256)

/-- a head that is stored, and is not the canonical head, is not genesis, its chain meets the canonical chain in the
store, and finalization prunes neither its entry nor that of the safe block -/
def UpdateOk (W : World) (t : EngineTree E) (state : ForkchoiceState) : Prop :=
  t.Stored state.headBlockHash → t.canonicalHead.hash ≠ state.headBlockHash →
    state.headBlockHash ≠ W.genesis.hash ∧
      t.provider.chainState.Meets state.headBlockHash t.canonicalHead.hash ∧ PrunesNeither W t state

/-- headers are known, a finalized download comes with its ancestors, and forkchoice updates are as above -/
def StepOk (W : World) (t : EngineTree E) : Op E → Prop
  | .finalizedBlock b ancestors => Chain.Delivered W b ancestors
  | .forkchoiceUpdated _ state _ _ => UpdateOk W t state
  | op => OpKnown W op

/-- every such update that answers VALID has put the requested hashes on the canonical chain -/
def ForkchoiceRight (W : World) (t : EngineTree E) : Prop :=
  ∀ sched state attrs version, UpdateOk W t state →
    AnswersValid (t.onForkchoiceUpdated sched state attrs version).1 →
      OnCanonicalChain W (t.onForkchoiceUpdated sched state attrs version).2 state

/-! ## The head's entry in every run -/

/-- the chain's head is its canonical entry, and nothing unknown is in the tree -/
structure Headed (W : World) (t : EngineTree E) : Prop where
  wf : Wf W t
  chain : Chain.Headed W t.chain

theorem headed_launch (W : World) (database : RessDatabase) : Headed W (launch E database W.genesis) :=
  ⟨wf_launch W database, Chain.headed_launch W⟩

theorem Inserts.headed {b : Block} {mw : Option ExecutionWitness} {r : Except InsertBlockErrorKind InsertPayloadOk}
    (hi : Inserts t b mw r t') (hb : W.Knows b.toSealedHeader) (h : Headed W t) : Headed W t' := by
  refine ⟨hi.wf h.wf hb, ?_⟩
  cases hi with
  | alreadySeen => exact h.chain
  | refused => exact h.chain
  | disconnected head missing => exact h.chain
  | noWitness => exact h.chain
  | valid w _ _ hp =>
    have hchain := h.chain.insertBlock (w := some w.stateWitness) ⟨hb, hp⟩
    exact hchain

theorem Headed.makeCanonical (h : Headed W t) (target : B256) : Headed W (t.makeCanonical target) := by
  refine ⟨h.wf.makeCanonical target, ?_⟩
  rw [makeCanonical_chain]
  exact h.chain.makeCanonical target

theorem Headed.keeps (W : World) : Keeps (E := E) (Headed W) fun b _ => W.Knows b.toSealedHeader where
  cache h := ⟨⟨h.wf.chain, h.wf.buffer⟩, h.chain⟩
  inserts hb hi h := hi.headed hb h
  makeCanonical target h := h.makeCanonical target
  takes ord p h := by
    obtain ⟨hwf, hknown⟩ := h.wf.takeFor ord p
    exact ⟨⟨hwf, h.chain⟩, hknown⟩

/-- a forkchoice update keeps the head's entry: the chain update writes it, and finalization does not reach it -/
theorem Headed.updates (h : Headed W t) {sched : StateRoot.Schedule} {state : ForkchoiceState} {r : UpdateAnswer}
    (hok : UpdateOk W t state) (hu : Updates sched t state r t') : Headed W t' := by
  have hforget : ∀ {t₁ : EngineTree E}, Forgets t t₁ → Headed W t₁ := fun hf => (Headed.keeps W).forgets hf h
  refine ⟨hu.wf h.wf, ?_⟩
  have hupdate : ∀ {t₁ : EngineTree E} {update : NewCanonicalChain}, Forgets t t₁ →
      t.onNewHead state.headBlockHash = some update → Chain.Headed W (t₁.onCanonicalChainUpdate update).chain := by
    intro t₁ update hf hnew
    have hnew₁ : t₁.chain.state.onNewHead t₁.chain.head state.headBlockHash = some update := by
      rw [hf.chain]
      exact hnew
    exact (hforget hf).chain.onCanonicalChainUpdate hnew₁
  cases hu with
  | zeroHead => exact h.chain
  | invalid _ _ _ hf => exact (hforget hf).chain
  | currentInconsistent _ hf => exact (hforget hf).chain
  | current _ hf => exact (hforget hf).chain
  | updateInconsistent _ hf _ hnew => exact hupdate hf hnew
  | @updated t₁ update _ _ hf hhead hnew =>
    obtain ⟨htip, -, -⟩ := ChainState.onNewHead_stored hnew
    obtain ⟨hhash, hknown⟩ := h.wf.chain.state.header htip
    have hnum : W.num state.headBlockHash = update.tip.number := (hhash ▸ hknown.hasNumber).num_eq
    have hstored : t.Stored state.headBlockHash := ChainState.sealedHeader_isSome.1 (by rw [htip]; rfl)
    rw [onFinalized_chain]
    split_ifs with hz
    · refine (hupdate hf hnew).removeBlocksOnFinalized fun f hfin => ?_
      change (t₁.chain.onCanonicalChainUpdate update).state.blocksByHash.get state.finalizedBlockHash = some f at hfin
      rw [Chain.onCanonicalChainUpdate_blocks, hf.chain] at hfin
      have hle := ((hok hstored hhead).2.2 hz f hfin).1
      rw [hnum] at hle
      exact hle
    · exact hupdate hf hnew
  | stored _ hf => exact (hforget hf).chain
  | syncing _ hf => exact (hforget hf).chain

theorem StepOk.known {op : Op E} (hok : StepOk W t op) : OpKnown W op := by
  cases op with
  | finalizedBlock b l => exact ⟨Chain.Delivered.known hok, fun x hx => ((Chain.Delivered.linked hok).mem x hx).1⟩
  | forkchoiceUpdated => trivial
  | _ => exact hok

theorem Headed.step (h : Headed W t) {op : Op E} (hok : StepOk W t op) : Headed W (t.step op) := by
  have hwf := h.wf.step hok.known
  cases op with
  | newPayload sched payload mw =>
    rcases onNewPayload_cases t sched payload mw with ⟨_, _, _, _, _, hf⟩ | ⟨b, hb, hr⟩
    · exact (Headed.keeps W).forgets hf h
    · exact (Headed.keeps W).receives hr (hok b hb) h
  | downloadedBlock sched b w => exact (Headed.keeps W).receives (onDownloadedBlock_receives t sched b w) hok h
  | forkchoiceUpdated sched state attrs version =>
    exact h.updates hok (onForkchoiceUpdated_updates t sched state attrs version)
  | makeCanonical target => exact h.makeCanonical target
  | finalizedBlock b l =>
    refine ⟨hwf, ?_⟩
    change Chain.Headed W (t.onFinalizedBlock b l).chain
    rw [onFinalizedBlock_chain]
    exact h.chain.onFinalizedBlock hok
  | bytecodeReceived c code =>
    refine ⟨hwf, ?_⟩
    change Chain.Headed W (t.onBytecode c code).2.chain
    unfold EngineTree.onBytecode RessProvider.insertBytecode
    cases t.provider.database.insertBytecode c code <;> exact h.chain
  | setLatest => exact ⟨hwf, h.chain⟩
  | bufferBlock => exact ⟨hwf, h.chain⟩
  | bufferWitness => exact ⟨hwf, h.chain⟩
  | takeBlock => exact ⟨hwf, h.chain⟩
  | takeWitness => exact ⟨hwf, h.chain⟩

/-! ## The three exits -/

/-- the exit after a chain update -/
theorem updated_onCanonicalChain_iff (h : Wf W t) {sched : StateRoot.Schedule} {state : ForkchoiceState}
    {update : NewCanonicalChain} (hu : t.onNewHead state.headBlockHash = some update)
    (hc : (t.onCanonicalChainUpdate update).Consistent state) :
    OnCanonicalChain W ((t.onCanonicalChainUpdate update).onFinalized sched state.finalizedBlockHash) state ↔
      (state.finalizedBlockHash ≠ 0 → ∀ f,
        t.provider.chainState.blocksByHash.get state.finalizedBlockHash = some f →
        f.number ≤ W.num state.headBlockHash + 256 ∧
          (state.safeBlockHash ≠ 0 → f.number ≤ W.num state.safeBlockHash + 256)) := by
  obtain ⟨htip, -, -⟩ := ChainState.onNewHead_stored hu
  obtain ⟨htipHash, -⟩ := h.chain.state.header htip
  have hnew : t.chain.state.onNewHead t.chain.head state.headBlockHash = some update := hu
  have hwf : (t.onCanonicalChainUpdate update).chain.Wf W := h.chain.onCanonicalChainUpdate hnew
  have hblocks : (t.onCanonicalChainUpdate update).chain.state.blocksByHash = t.provider.chainState.blocksByHash :=
    (ChainState.onChainUpdate_frame _ _ _).1
  have hheadCanon : (t.onCanonicalChainUpdate update).chain.state.IsHashCanonical state.headBlockHash :=
    ChainState.isHashCanonical_iff.2 ⟨update.tip.number, htipHash ▸ ChainState.onChainUpdate_tip update _⟩
  have hheadHash : (t.onCanonicalChainUpdate update).chain.head.hash = state.headBlockHash := htipHash
  generalize hv : t.onCanonicalChainUpdate update = v at hc hwf hblocks hheadCanon hheadHash
  have hchain := onFinalized_chain v sched state.finalizedBlockHash
  have hdesc : ∀ w : EngineTree E, w.chain.head = v.chain.head →
      W.Descends w.canonicalHead.hash state.headBlockHash := by
    intro w hw
    have : w.canonicalHead.hash = state.headBlockHash := (congrArg (·.hash) hw).trans hheadHash
    rw [this]
    exact Relation.ReflTransGen.refl
  by_cases hz : state.finalizedBlockHash = 0
  · rw [if_neg (by simpa using hz)] at hchain
    refine ⟨fun _ hne => absurd hz hne, fun _ => ?_⟩
    have hstate : (v.onFinalized sched state.finalizedBlockHash).provider.chainState = v.provider.chainState :=
      congrArg (·.state) hchain
    refine ⟨?_, hdesc _ (congrArg (·.head) hchain), ?_⟩
    · rw [hstate]; exact hheadCanon
    · unfold Consistent; rw [hstate]; exact hc
  · rw [if_pos hz] at hchain
    have hstate : (v.onFinalized sched state.finalizedBlockHash).provider.chainState =
        v.chain.state.removeBlocksOnFinalized state.finalizedBlockHash := congrArg (·.state) hchain
    rcases ChainState.removeBlocksOnFinalized_cases v.chain.state state.finalizedBlockHash with
      ⟨hnone, heq⟩ | ⟨f, hf, hfin⟩
    · rw [heq] at hstate
      refine ⟨fun _ _ f hf => ?_, fun _ => ⟨?_, hdesc _ (congrArg (·.head) hchain), ?_⟩⟩
      · rw [← hblocks, hnone] at hf
        cases hf
      · rw [hstate]; exact hheadCanon
      · unfold Consistent; rw [hstate]; exact hc
    · have hfnum : W.num state.finalizedBlockHash = f.number := by
        obtain ⟨hfh, hfk⟩ := hwf.state.known _ _ hf
        rw [← hfh]; exact hfk.hasNumber.num_eq
      have hiff := fun k hk => hfin.isHashCanonical_iff (h := k) hwf.state hk
      constructor
      · intro hpost _ f' hf'
        rw [← hblocks, hf] at hf'
        cases hf'
        refine ⟨(hiff _ hheadCanon).1 (hstate ▸ hpost.head), fun hsz => ?_⟩
        exact (hiff _ (hc.2 hsz)).1 (hstate ▸ hpost.consistent.2 hsz)
      · intro hcond
        obtain ⟨hhead, hsafe⟩ := hcond hz f (hblocks ▸ hf)
        refine ⟨?_, hdesc _ (congrArg (·.head) hchain), fun hfz => ?_, fun hsz => ?_⟩
        · rw [hstate]; exact (hiff _ hheadCanon).2 hhead
        · rw [hstate]; exact (hiff _ (hc.1 hfz)).2 (by rw [hfnum]; omega)
        · rw [hstate]; exact (hiff _ (hc.2 hsz)).2 (hsafe hsz)

/-- **The answer of one update.** -/
theorem Headed.forkchoiceRight (h : Headed W t) : ForkchoiceRight W t := by
  intro sched state attrs version hok hvalid
  have hu := onForkchoiceUpdated_updates t sched state attrs version
  obtain ⟨latestValidHash, event, hvalid⟩ := hvalid
  rw [hvalid] at hu
  generalize hans : (Except.ok (TreeOutcome.mk (OnForkChoiceUpdated.valid ⟨PayloadStatusEnum.valid, latestValidHash⟩)
    event) : UpdateAnswer) = answer at hu
  generalize (t.onForkchoiceUpdated sched state attrs version).2 = t' at hu ⊢
  cases hu with
  | zeroHead => simp [TreeOutcome.new] at hans
  | invalid => simp [TreeOutcome.new] at hans
  | currentInconsistent => simp [TreeOutcome.new] at hans
  | current _ hf hhead hc =>
    -- the first exit: the canonical head is in the map
    have hentry := h.chain.headCanon
    change t.provider.chainState.canonicalHashesByNumber.get t.canonicalHead.number = some t.canonicalHead.hash at hentry
    rw [hhead] at hentry
    refine ⟨?_, ?_, ?_⟩
    · rw [hf.provider]
      exact ChainState.isHashCanonical_iff.2 ⟨_, hentry⟩
    · rw [hf.canonicalHead, hhead]
      exact Relation.ReflTransGen.refl
    · unfold Consistent at hc ⊢
      rwa [hf.provider]
  | updateInconsistent => simp [TreeOutcome.new] at hans
  | @updated t₁ update _ _ hf hhead hnew hc =>
    -- the second exit: the update writes the entries, and finalization leaves them
    obtain ⟨htip, -, -⟩ := ChainState.onNewHead_stored hnew
    have hstored : t.Stored state.headBlockHash := ChainState.sealedHeader_isSome.1 (by rw [htip]; rfl)
    have hnew₁ : t₁.onNewHead state.headBlockHash = some update := by
      rw [← hnew]
      unfold onNewHead
      rw [hf.provider, hf.canonicalHead]
    refine (updated_onCanonicalChain_iff (hf.wf h.wf) hnew₁ hc).2 ?_
    rw [hf.provider]
    exact (hok hstored hhead).2.2
  | stored _ hf hhead hnew hstored =>
    -- the third exit is not taken: the chains meet, so there is an update
    obtain ⟨hgen, hmeets, -⟩ := hok hstored hhead
    have hfound := (ChainState.onNewHead_isSome_iff h.chain.state.known h.chain.linked h.chain.head).2
      ⟨hstored, hgen, hmeets⟩
    change (t.onNewHead state.headBlockHash).isSome = true at hfound
    rw [hnew] at hfound
    cases hfound
  | syncing => simp at hans

/-- **VALID means canonical.** In every run whose finalized downloads come with their ancestors, and whose forkchoice
updates are for heads that the store joins to the canonical chain, with a finalized block that does not prune them,
every such update that answers VALID has put the requested hashes on the canonical chain. -/
theorem runs_forkchoice_valid (W : World) (database : RessDatabase) (ops : List (Op E))
    (hops : Run.AllSteps step (StepOk W) (launch E database W.genesis) ops) :
    Run.Always step (ForkchoiceRight W) (launch E database W.genesis) ops :=
  Run.run_always (fun _ _ h hok => h.step hok) (fun _ h => h.forkchoiceRight) (headed_launch W database) hops

/-! ## Two heads -/

open Chain (twoBranches mainBlock sideBlock)

theorem storedLink_of_get {s : ChainState} {h : B256} {b : Block} (hb : s.blocksByHash.get h = some b) :
    s.StoredLink h b.parentHash := ⟨b, hb, rfl⟩

/-- the update to the main branch, which finalizes its first block, is one of these -/
theorem bothBranches_update : UpdateOk twoBranches (smallTree bothBranches) ⟨4, 3, 2⟩ := by
  intro _ _
  have h4 : (smallTree bothBranches).provider.chainState.StoredLink 4 3 :=
    storedLink_of_get (b := mainBlock 3) (by decide +kernel)
  have h3 : (smallTree bothBranches).provider.chainState.StoredLink 3 2 :=
    storedLink_of_get (b := mainBlock 2) (by decide +kernel)
  have h2 : (smallTree bothBranches).provider.chainState.StoredLink 2 1 :=
    storedLink_of_get (b := mainBlock 1) (by decide +kernel)
  have hhead : (smallTree bothBranches).canonicalHead.hash = 1 := by decide +kernel
  refine ⟨by decide, ⟨1, ?_, ?_⟩, fun _ f hf => ?_⟩
  · exact ((Relation.ReflTransGen.single h4).tail h3).tail h2
  · rw [hhead]
    exact Relation.ReflTransGen.refl
  · have hfin : (smallTree bothBranches).provider.chainState.blocksByHash.get 2 = some (mainBlock 1) := by
      decide +kernel
    cases hfin.symm.trans hf
    have hone : (mainBlock 1).number = 1 := rfl
    exact ⟨by omega, fun _ => by omega⟩

/-- the main branch is canonical with its first block finalized, and the side branch becomes canonical: the chains meet
in the hash of genesis, which is pruned -/
theorem runs_forkchoice_valid_reorg :
    AnswersValid ((smallTree (bothBranches ++ [smallUpdate ⟨4, 3, 2⟩])).onForkchoiceUpdated
        StateRoot.sortedSchedule ⟨1002, 1001, 0⟩ none 3).1 ∧
      OnCanonicalChain twoBranches ((smallTree (bothBranches ++ [smallUpdate ⟨4, 3, 2⟩])).onForkchoiceUpdated
        StateRoot.sortedSchedule ⟨1002, 1001, 0⟩ none 3).2 ⟨1002, 1001, 0⟩ := by
  have hvalid : AnswersValid ((smallTree (bothBranches ++ [smallUpdate ⟨4, 3, 2⟩])).onForkchoiceUpdated
      StateRoot.sortedSchedule ⟨1002, 1001, 0⟩ none 3).1 := ⟨some 1002, none, by decide +kernel⟩
  have hsteps : Run.AllSteps step (StepOk twoBranches) (launch smallEnv ⟨∅, none, none⟩ twoBranches.genesis)
      (bothBranches ++ [smallUpdate ⟨4, 3, 2⟩]) := by
    refine Run.allSteps_append.2 ⟨?_, bothBranches_update, trivial⟩
    have hknown : ∀ op ∈ bothBranches, OpKnown twoBranches op := bothBranches_known
    simp only [bothBranches, List.forall_mem_cons] at hknown
    obtain ⟨h1, h2, h3, h4, h5, -⟩ := hknown
    exact ⟨h1, h2, h3, h4, h5, trivial⟩
  refine ⟨hvalid, runs_forkchoice_valid twoBranches ⟨∅, none, none⟩ _ hsteps _ [] (by simp) StateRoot.sortedSchedule
    ⟨1002, 1001, 0⟩ none 3 (fun _ _ => ?_) hvalid⟩
  have h1002 : (smallTree (bothBranches ++ [smallUpdate ⟨4, 3, 2⟩])).provider.chainState.StoredLink 1002 1001 :=
    storedLink_of_get (b := sideBlock 2) (by decide +kernel)
  have h1001 : (smallTree (bothBranches ++ [smallUpdate ⟨4, 3, 2⟩])).provider.chainState.StoredLink 1001 1 :=
    storedLink_of_get (b := sideBlock 1) (by decide +kernel)
  have h4 : (smallTree (bothBranches ++ [smallUpdate ⟨4, 3, 2⟩])).provider.chainState.StoredLink 4 3 :=
    storedLink_of_get (b := mainBlock 3) (by decide +kernel)
  have h3 : (smallTree (bothBranches ++ [smallUpdate ⟨4, 3, 2⟩])).provider.chainState.StoredLink 3 2 :=
    storedLink_of_get (b := mainBlock 2) (by decide +kernel)
  have h2 : (smallTree (bothBranches ++ [smallUpdate ⟨4, 3, 2⟩])).provider.chainState.StoredLink 2 1 :=
    storedLink_of_get (b := mainBlock 1) (by decide +kernel)
  have hhead : (smallTree (bothBranches ++ [smallUpdate ⟨4, 3, 2⟩])).canonicalHead.hash = 4 := by decide +kernel
  refine ⟨by decide, ⟨1, ?_, ?_⟩, fun hz => absurd rfl hz⟩
  · exact (Relation.ReflTransGen.single h1002).tail h1001
  · change (smallTree (bothBranches ++ [smallUpdate ⟨4, 3, 2⟩])).provider.chainState.StoredAnc
      (smallTree (bothBranches ++ [smallUpdate ⟨4, 3, 2⟩])).canonicalHead.hash 1
    rw [hhead]
    exact ((Relation.ReflTransGen.single h4).tail h3).tail h2

/-- **VALID for a head beside the canonical chain.** With block 2 of the main branch finalized, the walk from block 2 of
the side branch finds no fork, and the answer is VALID though the head is not canonical. -/
theorem forkchoice_valid_sideBlock :
    (∀ op ∈ bothBranches ++ [smallUpdate ⟨4, 0, 3⟩], OpKnown twoBranches op) ∧
      AnswersValid ((smallTree (bothBranches ++ [smallUpdate ⟨4, 0, 3⟩])).onForkchoiceUpdated
        StateRoot.sortedSchedule ⟨1002, 0, 0⟩ none 3).1 ∧
      ¬ OnCanonicalChain twoBranches ((smallTree (bothBranches ++ [smallUpdate ⟨4, 0, 3⟩])).onForkchoiceUpdated
        StateRoot.sortedSchedule ⟨1002, 0, 0⟩ none 3).2 ⟨1002, 0, 0⟩ := by
  refine ⟨?_, ⟨some 1002, none, by decide +kernel⟩, ?_⟩
  · intro op hop
    rcases List.mem_append.1 hop with hop | hop
    · exact bothBranches_known op hop
    · rw [List.mem_singleton.1 hop]; trivial
  · intro h
    have hnot : ¬ ((smallTree (bothBranches ++ [smallUpdate ⟨4, 0, 3⟩])).onForkchoiceUpdated
        StateRoot.sortedSchedule ⟨1002, 0, 0⟩ none 3).2.provider.chainState.IsHashCanonical 1002 := by decide +kernel
    exact hnot h.head

end EngineTree

end Ress
