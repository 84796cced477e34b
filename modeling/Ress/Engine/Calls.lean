/-
The rule for properties that look at the calls of `insert_block` themselves.

`Inserts` tells what a call leaves behind, and not why: that a block was stored because its execution succeeded is lost.
`Calls P Q` asks of a property only that every call of `insert_block` with a block and a witness that meet `Q` keeps it,
and carries it through a payload, a downloaded block, and the events of a node.
-/
import Ress.Engine.EngineSteps

namespace Ress

namespace EngineTree

variable {E : Env} {t : EngineTree E} {P : EngineTree E → Prop} {Q : Block → Option ExecutionWitness → Prop}

/-- a property of the tree that does not look at the invalid header cache and is kept by calls of `insert_block` that
meet `Q`; the blocks taken out of the buffer meet `Q` -/
structure Calls (P : EngineTree E → Prop) (Q : Block → Option ExecutionWitness → Prop) : Prop where
  cache : ∀ {t : EngineTree E} {cache : E.cache.Cache}, P t → P { t with invalidHeaders := cache }
  insertBlock : ∀ {t : EngineTree E} (sched : StateRoot.Schedule) {block : Block} {mw : Option ExecutionWitness},
    Q block mw → P t → P (t.insertBlock sched block mw).2
  makeCanonical : ∀ {t : EngineTree E} (target : B256), P t → P (t.makeCanonical target)
  takes : ∀ {t : EngineTree E} (ord : Enumeration B256) (parentHash : B256), P t →
    P (t.takeFor ord parentHash) ∧ ∀ x ∈ t.takenFor ord parentHash, Q x.1 (some x.2)

theorem Calls.forgets (hc : Calls P Q) {t' : EngineTree E} (hf : Forgets t t') (h : P t) : P t' := by
  rw [hf.same]
  exact hc.cache h

theorem Calls.check (hc : Calls P Q) (check head : B256) (h : P t) :
    P (t.checkInvalidAncestorWithHead check head).2 := by
  rcases checkInvalidAncestorWithHead_cases t check head with ⟨-, -, hf⟩ | ⟨header, status, t₁, -, -, -, hf, heq⟩
  · exact hc.forgets hf h
  · rw [heq]
    exact hc.cache (hc.forgets hf h)

theorem Calls.insertError (hc : Calls P Q) (block : Block) (kind : InsertBlockErrorKind) (h : P t) :
    P (t.onInsertBlockError block kind).2 := by
  have hfails := onInsertBlockError_fails t block kind
  cases ho : t.onInsertBlockError block kind with
  | mk answer t' =>
    rw [ho] at hfails
    cases hfails with
    | fatal => exact h
    | invalid text _ latestValidHash t₁ hf => exact hc.cache (hc.forgets hf h)

theorem Calls.connectBlocks (hc : Calls P Q) (sched : StateRoot.Schedule) {blocks : List (Block × ExecutionWitness)}
    (hq : ∀ x ∈ blocks, Q x.1 (some x.2)) (h : P t) : P (EngineTree.connectBlocks sched blocks t).2 := by
  induction blocks generalizing t with
  | nil => exact h
  | cons x blocks ih =>
    obtain ⟨child, w⟩ := x
    have hrest : ∀ x ∈ blocks, Q x.1 (some x.2) := fun x hx => hq x (List.mem_cons_of_mem _ hx)
    have hchild := hc.insertBlock sched (hq _ List.mem_cons_self) h
    simp only [EngineTree.connectBlocks]
    cases hr : t.insertBlock sched child (some w) with
    | mk result t₁ =>
      rw [hr] at hchild
      cases result with
      | ok result =>
        simp only
        split_ifs
        · exact ih hrest (hc.makeCanonical child.hash hchild)
        · exact ih hrest hchild
      | error kind =>
        have herror := hc.insertError child kind hchild
        simp only
        cases hk : t₁.onInsertBlockError child kind with
        | mk answer t₂ =>
          rw [hk] at herror
          cases answer with
          | error fatal => exact herror
          | ok status => exact ih hrest herror

theorem Calls.tryConnect (hc : Calls P Q) (sched : StateRoot.Schedule) (parentHash : B256) (h : P t) :
    P (t.tryConnectBufferedBlocks sched parentHash).2 := by
  obtain ⟨htake, htaken⟩ := hc.takes sched.order parentHash h
  exact hc.connectBlocks sched htaken htake

/-- **A payload** keeps the property if its block may be inserted. -/
theorem Calls.onNewPayload (hc : Calls P Q) (sched : StateRoot.Schedule) {payload : E.validator.ExecutionData}
    {mw : Option ExecutionWitness} (hq : ∀ b, E.validator.ensureWellFormedPayload payload = .ok b → Q b mw) (h : P t) :
    P (t.onNewPayload sched payload mw).2 := by
  simp only [EngineTree.onNewPayload]
  cases hb : E.validator.ensureWellFormedPayload payload with
  | error error =>
    simp only
    split_ifs
    · exact h
    · exact hc.forgets (latestValidHash_forgets t _) h
  | ok block =>
    simp only
    rw [show (if t.lowestBufferedAncestorOr block.hash = block.hash then block.parentHash
      else t.lowestBufferedAncestorOr block.hash) = t.payloadCheck block from rfl]
    have hcheck := hc.check (t.payloadCheck block) block.hash h
    cases hk : t.checkInvalidAncestorWithHead (t.payloadCheck block) block.hash with
    | mk found t₁ =>
      rw [hk] at hcheck
      cases found with
      | some status => exact hcheck
      | none =>
        have hcall := hc.insertBlock sched (hq block hb) hcheck
        simp only
        cases hr : t₁.insertBlock sched block mw with
        | mk result t₂ =>
          rw [hr] at hcall
          have hconnect := hc.tryConnect sched block.hash hcall
          cases result with
          | error kind =>
            have herror := hc.insertError block kind hcall
            simp only
            cases ho : t₂.onInsertBlockError block kind with
            | mk answer t₃ =>
              rw [ho] at herror
              cases answer <;> exact herror
          | ok result =>
            cases ht : t₂.tryConnectBufferedBlocks sched block.hash with
            | mk answer t₃ =>
              rw [ht] at hconnect
              rcases result with _ | _ | _ | _
              · simp only [ht]
                cases answer <;> exact hconnect
              · simp only [ht]
                cases answer <;> exact hconnect
              · exact hcall
              · exact hcall

/-- **A downloaded block** likewise. -/
theorem Calls.onDownloadedBlock (hc : Calls P Q) (sched : StateRoot.Schedule) {block : Block} {w : ExecutionWitness}
    (hq : Q block (some w)) (h : P t) : P (t.onDownloadedBlock sched block w).2 := by
  simp only [EngineTree.onDownloadedBlock]
  have hcheck := hc.check (t.lowestBufferedAncestorOr block.hash) block.hash h
  cases hk : t.checkInvalidAncestorWithHead (t.lowestBufferedAncestorOr block.hash) block.hash with
  | mk found t₁ =>
    rw [hk] at hcheck
    cases found with
    | some status => exact hcheck
    | none =>
      have hcall := hc.insertBlock sched hq hcheck
      simp only
      cases hr : t₁.insertBlock sched block (some w) with
      | mk result t₂ =>
        rw [hr] at hcall
        have hconnect := hc.tryConnect sched block.hash hcall
        cases result with
        | error kind =>
          have herror := hc.insertError block kind hcall
          simp only
          cases ho : t₂.onInsertBlockError block kind with
          | mk answer t₃ =>
            rw [ho] at herror
            cases answer <;> exact herror
        | ok result =>
          cases ht : t₂.tryConnectBufferedBlocks sched block.hash with
          | mk answer t₃ =>
            rw [ht] at hconnect
            rcases result with _ | _ | _ | _
            · exact hcall
            · simp only [ht]
              cases answer <;> exact hconnect
            · exact hcall
            · exact hcall

end EngineTree

namespace ConsensusEngine

open EngineTree (Calls Follows Tracks Updates)

variable {E : Env} {P : EngineTree E → Prop} {Q : Block → Option ExecutionWitness → Prop}

/-- **An unlocked block** keeps the property if it may be inserted once it is ready. -/
theorem insertUnlocked_byCalls (hc : Calls P Q) (e : ConsensusEngine E) (sched : StateRoot.Schedule) (hash : B256)
    (htake : P (e.tree.withBuffer (e.tree.blockBuffer.removeBlock hash).2))
    (hq : ∀ b w, e.tree.blockBuffer.blocks.get hash = some b → e.tree.blockBuffer.witnesses.get hash = some w →
      e.tree.blockBuffer.missing hash = ∅ → Q b (some w)) : P (e.insertUnlocked sched hash).tree := by
  have hcases := BlockBuffer.removeBlock_cases e.tree.blockBuffer hash
  unfold insertUnlocked
  cases hr : e.tree.blockBuffer.removeBlock hash with
  | mk taken buffer =>
    rw [hr] at hcases htake
    cases taken with
    | none => exact htake
    | some x =>
      obtain ⟨block, witness⟩ := x
      rcases hcases with ⟨-, hnone⟩ | ⟨b, w, hb, hw, hm, hsome, -, -⟩
      · cases hnone
      · cases hsome
        have hreceived := hc.onDownloadedBlock sched (hq block witness hb hw hm) htake
        simp only [releaseParked_tree]
        exact (onMaybeTreeEvent_follows
          { e with tree := ((e.tree.withBuffer buffer).onDownloadedBlock sched block witness).2 } _).keeps
          (fun target => hc.makeCanonical target hreceived) hreceived

/-- **A message** keeps the property if payloads may be inserted with the witness that they take, and updates keep it. -/
theorem onEngineMessage_calls (hc : Calls P Q) (e : ConsensusEngine E) (sched : StateRoot.Schedule)
    (message : BeaconEngineMessage E) (h : P e.tree) (htake : ∀ payload, P (e.tree.witnessTaken payload))
    (hq : ∀ payload tx b, message = .newPayload payload tx → E.validator.ensureWellFormedPayload payload = .ok b →
      Q b (e.tree.takenWitness payload))
    (hupdate : ∀ state answer t t', Updates sched e.tree state answer t → Tracks t t' → P t') :
    P (e.onEngineMessage sched message).tree := by
  have hfollows : ∀ {t t' : EngineTree E}, Follows t t' → P t → P t' :=
    fun hf ht => hf.keeps (fun target => hc.makeCanonical target ht) ht
  have hmessages := onEngineMessage_messages e sched message
  cases message with
  | newPayload payload tx =>
    refine hfollows (onEngineMessage_payload e sched payload tx) ?_
    exact hc.onNewPayload sched (fun b hb => hq payload tx b rfl hb) (htake payload)
  | forkchoiceUpdated state attrs tx version =>
    cases hmessages with
    | forkchoice hu htrack hf => exact hfollows hf (hupdate _ _ _ _ hu htrack)
  | transitionConfigurationExchanged => exact h

end ConsensusEngine

end Ress
