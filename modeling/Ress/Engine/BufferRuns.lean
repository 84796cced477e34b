/-
The buffer of a node is one that buffer operations lead to.

Whatever a node does to its buffer is a sequence of the operations of `BlockBuffer`, and the blocks inserted are those
of payloads and of block downloads (`Fed`). So what holds of the buffer after every sequence of operations holds of the
buffer of a node, such as its capacity (`FromOps.capped`).
-/
import Ress.Engine.Answers
import Ress.Tree.Handling

namespace Ress

namespace BlockBuffer

variable {β β' : BlockBuffer} {limit : ℕ}

/-! ## Capacity -/

/-- the LRU map holds the buffered blocks, and no more than `limit` -/
structure Capped (limit : ℕ) (β : BlockBuffer) : Prop where
  limit_eq : β.lru.limit = limit
  keys : ∀ k b, β.blocks.get k = some b → k ∈ β.lru.order
  length : β.lru.order.length ≤ limit

theorem Capped.card (h : Capped limit β) : β.blocks.keys.card ≤ limit := by
  have hsub : β.blocks.keys ⊆ β.lru.order.toFinset := by
    intro k hk
    obtain ⟨b, hb⟩ := FMap.mem_keys.1 hk
    exact List.mem_toFinset.2 (h.keys k b hb)
  calc β.blocks.keys.card ≤ β.lru.order.toFinset.card := Finset.card_le_card hsub
    _ ≤ β.lru.order.length := List.toFinset_card_le _
    _ ≤ limit := h.length

theorem Capped.drops {hash : B256} (h : Capped limit β) (hd : Drops hash β β') : Capped limit β' := by
  cases hd with
  | same => exact ⟨h.limit_eq, h.keys, h.length⟩
  | gone b hb =>
    refine ⟨h.limit_eq, ?_, (List.length_erase_le).trans h.length⟩
    intro k x hx
    obtain ⟨hne, hold⟩ := FMap.get_del_some hx
    exact (List.mem_erase_of_ne hne).2 (h.keys k x hold)

theorem Capped.insertBlock (h : Capped limit β) (hlimit : 1 ≤ limit) (b : Block) : Capped limit (β.insertBlock b) := by
  have hadd : ∀ {order : List B256} {k : B256} {x : Block}, (β.addInFront b order).blocks.get k = some x →
      k = b.hash ∨ β.blocks.get k = some x := by
    intro order k x hx
    simp only [addInFront, addBlock, FMap.get_set] at hx
    split_ifs at hx with hk
    · exact Or.inl hk
    · exact Or.inr hx
  by_cases hroom : b.hash ∈ β.lru.order ∨ β.lru.order.length < β.lru.limit
  · rw [insertBlock_room b hroom]
    refine ⟨h.limit_eq, ?_, ?_⟩
    · intro k x hx
      by_cases hk : k = b.hash
      · rw [hk]
        exact List.mem_cons_self
      · exact List.mem_cons_of_mem _ ((List.mem_erase_of_ne hk).2 (h.keys k x ((hadd hx).resolve_left hk)))
    · have hlength := h.length
      have hlru := h.limit_eq
      show (b.hash :: β.lru.order.erase b.hash).length ≤ limit
      rw [List.length_cons]
      by_cases hmem : b.hash ∈ β.lru.order
      · have hpos := List.length_pos_of_mem hmem
        rw [List.length_erase_of_mem hmem]
        omega
      · rw [List.erase_of_not_mem hmem]
        have := hroom.resolve_left hmem
        omega
  · rw [not_or, not_lt] at hroom
    cases hlast : β.lru.order.getLast? with
    | none =>
      -- at the limit the order is not empty
      have hnil := List.getLast?_eq_none_iff.1 hlast
      have hle := hroom.2
      rw [hnil, h.limit_eq] at hle
      exact absurd hle (by simp; omega)
    | some oldest =>
      obtain ⟨hdrop, hgone⟩ := insertBlock_full b hroom.1 hroom.2 hlast
      have horder : β.lru.order.dropLast ++ [oldest] = β.lru.order := List.dropLast_append_getLast? oldest hlast
      have hlength : (b.hash :: β.lru.order.dropLast).length ≤ limit := by
        have hlength := h.length
        rw [← horder, List.length_append, List.length_singleton] at hlength
        rw [List.length_cons]
        exact hlength
      -- the hash that leaves the order is no key of the buffer any more
      have hkeys : ∀ k x, (β.addInFront b β.lru.order.dropLast).blocks.get k = some x → k ≠ oldest →
          k ∈ b.hash :: β.lru.order.dropLast := by
        intro k x hx hne
        by_cases hk : k = b.hash
        · rw [hk]
          exact List.mem_cons_self
        · have hmem := h.keys k x ((hadd hx).resolve_left hk)
          rw [← horder, List.mem_append, List.mem_singleton] at hmem
          exact List.mem_cons_of_mem _ (hmem.resolve_right hne)
      generalize β.insertBlock b = β' at hdrop hgone
      cases hdrop with
      | same =>
        refine ⟨h.limit_eq, fun k x hx => hkeys k x hx ?_, hlength⟩
        rintro rfl
        cases hgone.symm.trans hx
      | gone e he =>
        refine ⟨h.limit_eq, ?_, List.length_erase_le.trans hlength⟩
        intro k x hx
        obtain ⟨hne, hold⟩ := FMap.get_del_some hx
        exact (List.mem_erase_of_ne hne).2 (hkeys k x hold hne)

theorem Capped.apply (h : Capped limit β) (hlimit : 1 ≤ limit) (op : BufferOp) : Capped limit (β.apply op) := by
  have hlinks : ∀ (β : BlockBuffer) p, Capped limit β → Capped limit { β with parentToChild := β.parentToChild.del p } :=
    fun _ _ hc => ⟨hc.limit_eq, hc.keys, hc.length⟩
  cases op with
  | insertBlock block => exact h.insertBlock hlimit block
  | insertWitness hash witness missing => exact h.drops (insertWitness_drops β hash witness missing)
  | removeBlock hash => exact h.drops (removeBlock_drops β hash)
  | removeWitness hash => exact h.drops (removeWitness_drops β hash)
  | removeBlockWithChildren ord parentHash =>
    exact removeBlockWithChildren_keeps (fun β hash hc => hc.drops (removeBlock_drops β hash)) hlinks ord parentHash h
  | onBytecodeReceived codeHash => exact h.drops (onBytecodeReceived_drops β codeHash)
  | evictOldBlocks ord number =>
    exact evictOldBlocks_keeps (fun β hash hc => hc.drops (evictBlock_drops β hash)) hlinks
      (fun _ _ hc => ⟨hc.limit_eq, hc.keys, hc.length⟩) ord number h

theorem runOps_capped (hlimit : 1 ≤ limit) (ops : List BufferOp) : Capped limit (runOps limit ops) :=
  Run.run_preserves (fun _ op h => h.apply hlimit op) ops
    ⟨rfl, fun k b hb => absurd hb (by simp [BlockBuffer.new]), Nat.zero_le limit⟩

end BlockBuffer

namespace EngineTree

open ConsensusEngine (Messages)

variable {E : Env} {t t' : EngineTree E} {Q : Block → Prop}

/-! ## The operations of the engine tree -/

/-- operations lead to the buffer, and insert only blocks that meet `Q` -/
def FromOps (Q : Block → Prop) (t : EngineTree E) : Prop :=
  ∃ ops, t.blockBuffer = BlockBuffer.runOps 256 ops ∧ ∀ b, .insertBlock b ∈ ops → Q b

theorem FromOps.apply (h : FromOps Q t) (op : BufferOp) (hop : ∀ b, op = .insertBlock b → Q b) :
    FromOps Q (t.withBuffer (t.blockBuffer.apply op)) := by
  obtain ⟨ops, hbuffer, hops⟩ := h
  refine ⟨ops ++ [op], ?_, ?_⟩
  · rw [BlockBuffer.runOps_concat, ← hbuffer]
    rfl
  · intro b hb
    rcases List.mem_append.1 hb with hb | hb
    · exact hops b hb
    · exact hop b (List.mem_singleton.1 hb).symm

theorem FromOps.congr (h : FromOps Q t) (hbuffer : t'.blockBuffer = t.blockBuffer) : FromOps Q t' := by
  obtain ⟨ops, heq, hops⟩ := h
  exact ⟨ops, hbuffer.trans heq, hops⟩

/-- the blocks of the buffer were inserted -/
theorem FromOps.blocks (h : FromOps Q t) {k : B256} {b : Block} (hb : t.blockBuffer.blocks.get k = some b) : Q b := by
  obtain ⟨ops, hbuffer, hops⟩ := h
  rw [hbuffer] at hb
  exact hops b (BlockBuffer.runOps_blocks 256 ops k b hb)

theorem FromOps.keyed (h : FromOps Q t) : t.blockBuffer.Keyed := by
  obtain ⟨ops, hbuffer, -⟩ := h
  exact hbuffer ▸ BlockBuffer.runOps_keyed 256 ops

/-- the buffer keeps to its limit -/
theorem FromOps.capped (h : FromOps Q t) : BlockBuffer.Capped 256 t.blockBuffer := by
  obtain ⟨ops, hbuffer, -⟩ := h
  exact hbuffer ▸ BlockBuffer.runOps_capped (by decide) ops

/-- if a hash determines the header, the number index of the buffer is exact -/
theorem FromOps.aged {W : World} (h : FromOps (fun b => W.Knows b.toSealedHeader) t) :
    ∃ history, BlockBuffer.Aged 256 history Set.univ t.blockBuffer := by
  obtain ⟨ops, hbuffer, hops⟩ := h
  have hdetermine : BlockBuffer.HashesDetermine ops := by
    intro b b' hb hb' heq
    have hknows := hops b hb
    have hknows' := hops b' hb'
    simp only [World.Knows] at hknows hknows'
    have heq' : b.toSealedHeader.hash = b'.toSealedHeader.hash := heq
    rw [heq'] at hknows
    exact Option.some.inj (hknows.symm.trans hknows')
  exact ⟨_, hbuffer ▸ BlockBuffer.runs_aged (by decide) hdetermine⟩

theorem FromOps.insertBlock (h : FromOps Q t) {b : Block} (hq : Q b) :
    FromOps Q (t.withBuffer (t.blockBuffer.insertBlock b)) := by
  refine h.apply (.insertBlock b) ?_
  rintro _ ⟨rfl⟩
  exact hq

theorem FromOps.keeps (Q : Block → Prop) : Keeps (E := E) (FromOps Q) fun b _ => Q b where
  cache h := h.congr rfl
  inserts {t t' b mw r} hq hi h := by
    cases hi with
    | alreadySeen => exact h.congr rfl
    | refused => exact h.congr rfl
    | valid => exact h.congr rfl
    | noWitness => exact (h.insertBlock hq).congr rfl
    | disconnected =>
      cases mw with
      | none => exact (h.insertBlock hq).congr rfl
      | some w =>
        have hwitness := h.apply (.insertWitness b.hash w ∅) (by rintro _ ⟨⟩)
        exact (hwitness.insertBlock hq).congr rfl
  makeCanonical {t} target h := h.congr (makeCanonical_frame t target).1
  takes {t} ord p h := by
    refine ⟨(h.apply (.removeBlockWithChildren ord p) (by rintro _ ⟨⟩)).congr rfl, ?_⟩
    intro x hx
    exact h.blocks ((BlockBuffer.removeBlockWithChildren_taken ord t.blockBuffer p h.keyed).taken x hx).1

theorem FromOps.onFinalized (h : FromOps Q t) (sched : StateRoot.Schedule) (hash : B256) :
    FromOps Q (t.onFinalized sched hash) := by
  simp only [EngineTree.onFinalized]
  split
  · exact (h.apply (.evictOldBlocks sched.order _) (by rintro _ ⟨⟩)).congr rfl
  · exact h.congr rfl

theorem FromOps.updates (h : FromOps Q t) {sched : StateRoot.Schedule} {state : ForkchoiceState} {r : UpdateAnswer}
    (hu : Updates sched t state r t') : FromOps Q t' := by
  rcases hu.store_cases with hsame | ⟨t₁, hash, hsame, rfl⟩
  · exact h.congr hsame.buffer
  · exact (h.congr hsame.buffer).onFinalized sched hash

/-- the payload of the message has a block that meets `Q`, if it is well formed -/
def BringsBlock (Q : Block → Prop) : BeaconEngineMessage E → Prop
  | .newPayload payload _ => ∀ b, E.validator.ensureWellFormedPayload payload = .ok b → Q b
  | _ => True

theorem FromOps.messages (h : FromOps Q t) {sched : StateRoot.Schedule} {message : BeaconEngineMessage E}
    (hq : BringsBlock Q message) (hm : Messages sched t message t') : FromOps Q t' := by
  apply hm.keeps h
  · exact fun t₁ target h₁ => h₁.congr (makeCanonical_frame t₁ target).1
  · exact fun t₁ t₂ hf h₁ => h₁.congr hf.blockBuffer
  · exact fun t₁ t₂ ht h₁ => h₁.congr ht.blockBuffer
  · exact fun hash => h.apply (.removeWitness hash) (by rintro _ ⟨⟩)
  · rintro payload tx b check answer t₁ rfl hb hr
    exact (FromOps.keeps Q).receives hr (hq b hb) (h.apply (.removeWitness _) (by rintro _ ⟨⟩))
  · exact fun state answer t₁ hu => h.updates hu

theorem Wf.messages {W : World} (h : Wf W t) {sched : StateRoot.Schedule} {message : BeaconEngineMessage E}
    (hq : BringsBlock (fun b => W.Knows b.toSealedHeader) message) (hm : Messages sched t message t') : Wf W t' := by
  have htake : ∀ hash, Wf W (t.withBuffer (t.blockBuffer.removeWitness hash).2) :=
    fun hash => ⟨h.chain, h.buffer.shrinks (BlockBuffer.removeWitness_removes _ hash).1.toShrinks⟩
  apply hm.keeps h
  · exact fun t₁ target h₁ => h₁.makeCanonical target
  · exact fun t₁ t₂ hf h₁ => hf.wf h₁
  · exact fun t₁ t₂ ht h₁ => ht.wf h₁
  · exact htake
  · rintro payload tx b check answer t₁ rfl hb hr
    exact hr.wf (htake _) (hq b hb)
  · exact fun state answer t₁ hu => hu.wf h

end EngineTree

namespace ConsensusEngine

open EngineTree (FromOps Wf)

variable {E : Env} {e : ConsensusEngine E} {Q : Block → Prop}

theorem receiveOutcome_fromOps (h : FromOps Q e.tree) (sched : StateRoot.Schedule) {data : DownloadData}
    (hq : ∀ b, data = .fullBlock b → Q b) : FromOps Q (e.receiveOutcome sched data).2.tree := by
  have hreceived := receiveOutcome_received e sched data
  generalize e.receiveOutcome sched data = received at hreceived ⊢
  cases hreceived with
  | finalized hrecover => exact h.congr rfl
  | unrecovered hrecover => exact h
  | @buffered block hrecover => exact h.insertBlock (hq block rfl)
  | dropped hrecover => exact h
  | lookupFailed hmissing => exact h
  | @complete blockHash witness hmissing => exact h.apply (.insertWitness blockHash witness ∅) (by rintro _ ⟨⟩)
  | @incomplete blockHash witness missing hmissing hne =>
    exact h.apply (.insertWitness blockHash witness missing) (by rintro _ ⟨⟩)
  | @bytecode codeHash bytecode =>
    simp only [EngineTree.onBytecode]
    cases e.tree.provider.insertBytecode codeHash bytecode with
    | error error => exact h
    | ok provider => exact (h.apply (.onBytecodeReceived codeHash) (by rintro _ ⟨⟩)).congr rfl

theorem insertUnlocked_fromOps (h : FromOps Q e.tree) (sched : StateRoot.Schedule) (hash : B256) :
    FromOps Q (e.insertUnlocked sched hash).tree := by
  have htaken := h.apply (.removeBlock hash) (by rintro _ ⟨⟩)
  rcases insertUnlocked_cases e sched hash with ⟨-, heq⟩ | ⟨b, w, answer, t, hb, -, -, hr, hf⟩
  · rw [heq]
    exact htaken
  · have hreceived := (FromOps.keeps Q).receives hr (h.blocks hb) htaken
    exact hf.keeps (fun target => (FromOps.keeps Q).makeCanonical target hreceived) hreceived

/-- the blocks and headers of the outcome are known -/
def OutcomeKnown (W : World) : DownloadData → Prop
  | .fullBlock block => W.Knows block.toSealedHeader
  | .finalizedBlock block ancestors => W.Knows block.toSealedHeader ∧ ∀ x ∈ ancestors, W.Knows x
  | _ => True

theorem receiveOutcome_wf {W : World} (h : Wf W e.tree) (sched : StateRoot.Schedule) {data : DownloadData}
    (hknown : OutcomeKnown W data) : Wf W (e.receiveOutcome sched data).2.tree := by
  have hreceived := receiveOutcome_received e sched data
  generalize e.receiveOutcome sched data = received at hreceived ⊢
  cases hreceived with
  | finalized hrecover =>
    refine ⟨?_, h.buffer⟩
    simp only [EngineTree.onFinalizedBlock_chain]
    exact h.chain.onFinalizedBlock hknown.1 hknown.2
  | unrecovered hrecover => exact h
  | buffered hrecover => exact ⟨h.chain, h.buffer.insertBlock hknown⟩
  | dropped hrecover => exact h
  | lookupFailed hmissing => exact h
  | complete hmissing => exact ⟨h.chain, h.buffer.insertWitness _ _ _⟩
  | incomplete hmissing hne => exact ⟨h.chain, h.buffer.insertWitness _ _ _⟩
  | bytecode => exact h.onBytecode _ _

theorem insertUnlocked_wf {W : World} (h : Wf W e.tree) (sched : StateRoot.Schedule) (hash : B256) :
    Wf W (e.insertUnlocked sched hash).tree := by
  have htaken : Wf W (e.tree.withBuffer (e.tree.blockBuffer.removeBlock hash).2) :=
    ⟨h.chain, h.buffer.shrinks (BlockBuffer.removeBlock_removes e.tree.blockBuffer hash).toShrinks⟩
  rcases insertUnlocked_cases e sched hash with ⟨-, heq⟩ | ⟨b, w, answer, t, hb, -, -, hr, hf⟩
  · rw [heq]
    exact htaken
  · have hreceived := hr.wf htaken (h.buffer.blocks _ _ hb).2
    exact hf.keeps (fun target => hreceived.makeCanonical target) hreceived

end ConsensusEngine

namespace Node

open EngineTree (FromOps BringsBlock Wf)
open ConsensusEngine (OutcomeKnown)

variable {E : Env} {Q : Block → Prop}

/-- payloads and block downloads bring blocks that meet `Q` -/
def EventBrings (Q : Block → Prop) (n : Node E) : NodeEvent E → Prop
  | .arrive message => BringsBlock Q message
  | .poll io => ∀ b, n.engine.delivered io = some (.fullBlock b) → Q b

theorem eventBrings_true (n : Node E) (event : NodeEvent E) : EventBrings (fun _ => True) n event := by
  cases event with
  | arrive message => cases message <;> simp [EventBrings, BringsBlock]
  | poll io => simp [EventBrings]

structure Fed (Q : Block → Prop) (n : Node E) : Prop where
  tree : FromOps Q n.engine.tree
  queue : ∀ message ∈ n.engine.fromBeaconEngine, BringsBlock Q message

theorem Fed.step {n : Node E} (h : Fed Q n) {event : NodeEvent E} (hq : EventBrings Q n event) : Fed Q (n.step event) := by
  refine ⟨step_tree n event h.tree (fun _ _ _ ht => ht.congr rfl) ?_ ?_, ?_⟩
  · exact fun sched t t' message hmem ht hm => ht.messages (h.queue message hmem) hm
  · rintro io data rfl hdata
    have hafter : FromOps Q (n.engine.afterPoll io).tree := h.tree.congr rfl
    apply ConsensusEngine.onDownloadOutcome_tree (P := fun _ t => FromOps Q t) _ io.sched data
    · refine ConsensusEngine.receiveOutcome_fromOps hafter io.sched ?_
      rintro b rfl
      exact hq b hdata
    · exact fun e hash _ he => ConsensusEngine.insertUnlocked_fromOps he io.sched hash
  · intro message hmessage
    rcases step_queue n event message hmessage with hm | rfl
    · exact h.queue message hm
    · exact hq

theorem fed_launch (Q : Block → Prop) (database : RessDatabase) (genesis : Block) : Fed Q (launch E database genesis) :=
  ⟨⟨[], rfl, by simp⟩, by simp [launch, ConsensusEngine.launch]⟩

/-! ## Known blocks -/

/-- what is delivered is known, and so are the blocks of payloads -/
def EventKnown (W : World) (n : Node E) : NodeEvent E → Prop
  | .arrive message => BringsBlock (fun b => W.Knows b.toSealedHeader) message
  | .poll io => ∀ data, n.engine.delivered io = some data → OutcomeKnown W data

/-- only known blocks are in the node -/
structure Grounded (W : World) (n : Node E) : Prop where
  wf : Wf W n.engine.tree
  fed : Fed (fun b => W.Knows b.toSealedHeader) n

theorem Grounded.step {W : World} {n : Node E} (h : Grounded W n) {event : NodeEvent E} (hknown : EventKnown W n event) :
    Grounded W (n.step event) := by
  refine ⟨?_, h.fed.step ?_⟩
  · refine step_tree n event h.wf (fun _ _ _ ht => ⟨ht.chain, ht.buffer⟩) ?_ ?_
    · exact fun sched t t' message hmem ht hm => ht.messages (h.fed.queue message hmem) hm
    · rintro io data rfl hdata
      have hafter : Wf W (n.engine.afterPoll io).tree := ⟨h.wf.chain, h.wf.buffer⟩
      apply ConsensusEngine.onDownloadOutcome_tree (P := fun _ t => Wf W t) _ io.sched data
      · exact ConsensusEngine.receiveOutcome_wf hafter io.sched (hknown data hdata)
      · exact fun e hash _ he => ConsensusEngine.insertUnlocked_wf he io.sched hash
  · cases event with
    | arrive message => exact hknown
    | poll io => exact fun b hb => hknown (.fullBlock b) hb

theorem grounded_launch (W : World) (database : RessDatabase) : Grounded W (launch E database W.genesis) :=
  ⟨EngineTree.wf_launch W database, fed_launch _ database W.genesis⟩

end Node

end Ress
