/-
The missing ancestor that `insert_block` reports for a block whose parent is not validated, and that is downloaded next.

The walk follows parents through the buffer only, and takes the first hash that is not buffered for missing. But a block
waits in the buffer for its witness, or for bytecodes, although its parent is validated; a descendant of it then reports
that parent.

- `insertBlock_missing`: what is reported is where the walk ends.
- `missing_ancestor_iff`: it is really missing exactly if no block on the way waits below a validated parent, in every
  state of every run.
- `validated_ancestor_requested`: the failing case. A block that waits for its witness makes genesis be requested.
-/
import Ress.Tree.Propagation

namespace Ress

/-- no block is its own ancestor, as the parent hash is part of what is hashed -/
def World.Acyclic (W : World) : Prop :=
  ∀ h, ¬ Relation.TransGen (fun d p => ∃ x, W.header d = some x ∧ x.parentHash = p) h h

/-- heights that go down along parent hashes allow no cycle -/
theorem World.acyclic_of_number {W : World}
    (h : ∀ d x y, W.header d = some x → W.header x.parentHash = some y → y.number < x.number) : W.Acyclic := by
  have hdown : ∀ {d p}, Relation.TransGen (fun d p => ∃ x, W.header d = some x ∧ x.parentHash = p) d p →
      ∀ y, W.header p = some y → W.num p < W.num d := by
    intro d p hpath
    induction hpath with
    | single hx =>
      intro y hy
      obtain ⟨x, hx, rfl⟩ := hx
      simpa [World.num, hx, hy] using h d x y hx hy
    | tail _ hx ih =>
      intro y hy
      obtain ⟨x, hx, rfl⟩ := hx
      have hlast := h _ x y hx hy
      have hrest := ih x hx
      simp only [World.num, hx, hy, Option.elim_some] at hlast hrest ⊢
      omega
  intro d hcycle
  obtain ⟨_, ⟨x, hx, -⟩, -⟩ := Relation.TransGen.head'_iff.1 hcycle
  exact lt_irrefl _ (hdown hcycle x hx)

namespace BlockBuffer

variable {β : BlockBuffer} {W : World} {b l x : Block}

/-- the block itself, or an ancestor that parents in the buffer lead to -/
def BufferedAncestor (β : BlockBuffer) : Block → Block → Prop :=
  Relation.ReflTransGen fun b p => β.blocks.get b.parentHash = some p

/-- where the walk ends is the ancestor whose parent is not buffered -/
theorem lowest_iff : Lowest β b l ↔ BufferedAncestor β b l ∧ β.blocks.get l.parentHash = none := by
  constructor
  · intro h
    refine ⟨?_, h.parent_notBuffered⟩
    induction h with
    | here => exact Relation.ReflTransGen.refl
    | up hp _ ih => exact Relation.ReflTransGen.head hp ih
  · rintro ⟨hpath, hnone⟩
    induction hpath using Relation.ReflTransGen.head_induction_on with
    | refl => exact Lowest.here hnone
    | head hp _ ih => exact Lowest.up hp ih

theorem Known.acyclic (h : Known W β) (hW : W.Acyclic) : β.Acyclic := by
  have hstep : ∀ {k b}, β.blocks.get k = some b → ∃ x, W.header k = some x ∧ x.parentHash = b.parentHash := by
    intro k b hb
    obtain ⟨hhash, hknows⟩ := h.blocks k b hb
    exact ⟨b.toSealedHeader, hhash ▸ hknows, rfl⟩
  have hunder : ∀ {p k}, Under β p k →
      Relation.TransGen (fun d p => ∃ x, W.header d = some x ∧ x.parentHash = p) k p := by
    intro p k hu
    induction hu with
    | child hb hp => exact Relation.TransGen.single (hp ▸ hstep hb)
    | deeper hb _ ih => exact Relation.TransGen.head (hstep hb) ih
  exact fun k hu => hW k (hunder hu)

/-- the walk from a known block does not lead back to it -/
theorem Known.lowest_ne (h : Known W β) (hW : W.Acyclic) (hb : W.Knows b.toSealedHeader) (hl : Lowest β b l) :
    l.parentHash ≠ b.hash := by
  have hpath : Relation.TransGen (fun d p => ∃ x, W.header d = some x ∧ x.parentHash = p) b.hash l.parentHash := by
    induction hl with
    | here => exact Relation.TransGen.single ⟨_, hb, rfl⟩
    | @up b p l hp _ ih =>
      obtain ⟨hhash, hknows⟩ := h.blocks _ p hp
      exact Relation.TransGen.head ⟨_, hb, hhash.symm⟩ (ih hknows)
  intro heq
  rw [heq] at hpath
  exact hW _ hpath

end BlockBuffer

namespace EngineTree

open BlockBuffer (BufferedAncestor Lowest)

variable {E : Env} {W : World} {t t' : EngineTree E} {b : Block}

/-- what is reported is the parent of the lowest buffered ancestor, with its number, and it is neither buffered nor
validated -/
structure ReallyMissing (t : EngineTree E) (b : Block) (t' : EngineTree E) (missing : BlockNumHash) : Prop where
  first : ∃ l, Lowest t.blockBuffer b l ∧ missing.hash = l.parentHash ∧ missing.number + 1 = l.number
  unbuffered : ¬ t.Buffered missing.hash ∧ ¬ t'.Buffered missing.hash
  unvalidated : ¬ t.Stored missing.hash ∧ ¬ t'.Stored missing.hash

/-- on the way up from the block, every parent is buffered, or it is not validated and has a number -/
def ParentsPending (t : EngineTree E) (b : Block) : Prop :=
  ∀ x, BufferedAncestor t.blockBuffer b x → t.Buffered x.parentHash ∨ (¬ t.Stored x.parentHash ∧ 0 < x.number)

/-! ## One insertion -/

/-- **What is reported** is the parent of the lowest buffered ancestor. -/
theorem insertBlock_missing (hwf : Wf W t) (hW : W.Acyclic) {sched : StateRoot.Schedule} {mw : Option ExecutionWitness}
    {head missing : BlockNumHash} (hr : (t.insertBlock sched b mw).1 = .ok (.inserted (.disconnected head missing))) :
    ∃ l, Lowest t.blockBuffer b l ∧ missing = l.parentNumHash := by
  unfold insertBlock tryInsertBlock at hr
  split_ifs at hr
  · cases hr
  · cases hv : validateBlock E b with
    | error error =>
      rw [hv] at hr
      cases hr
    | ok _ =>
      rw [hv] at hr
      simp only at hr
      cases hp : t.provider.sealedHeader b.parentHash with
      | none =>
        rw [hp] at hr
        simp only [Except.ok.injEq, InsertPayloadOk.inserted.injEq, BlockStatus.disconnected.injEq] at hr
        obtain ⟨-, rfl⟩ := hr
        cases hbuffered : t.blockBuffer.blocks.get b.parentHash with
        | none =>
          refine ⟨b, Lowest.here hbuffered, ?_⟩
          simp [BlockBuffer.lowestAncestor, hbuffered]
        | some p =>
          obtain ⟨l, hlowest, hl⟩ :=
            BlockBuffer.lowestAncestor_lowest hwf.buffer.keyed (hwf.buffer.acyclic hW) hbuffered
          exact ⟨l, Lowest.up hbuffered hl, by rw [hlowest]; rfl⟩
      | some parent =>
        rw [hp] at hr
        simp only at hr
        split at hr
        · cases hr
        · split at hr
          · cases hr
          · split at hr <;> cases hr

/-- the buffer gains the block only, and the store nothing -/
theorem Inserts.disconnected_frame {mw : Option ExecutionWitness} {head missing : BlockNumHash}
    (hi : Inserts t b mw (.ok (.inserted (.disconnected head missing))) t') :
    (∀ k, t'.Buffered k → k = b.hash ∨ t.Buffered k) ∧ t'.storedHashes = t.storedHashes := by
  cases hi with
  | disconnected =>
    refine ⟨?_, rfl⟩
    intro k hk
    obtain ⟨x, hx⟩ := Option.ne_none_iff_exists'.1 hk
    have hx' : (t.bufferWith b mw).blocks.get k = some x := hx
    cases mw with
    | none =>
      rcases BlockBuffer.insertBlock_blocks hx' with ⟨hkb, -⟩ | ⟨-, hold⟩
      · exact Or.inl hkb
      · exact Or.inr (by rw [Buffered, hold]; simp)
    | some w =>
      rcases BlockBuffer.insertBlock_blocks hx' with ⟨hkb, -⟩ | ⟨-, hold⟩
      · exact Or.inl hkb
      · have hold' : t.blockBuffer.blocks.get k = some x := hold
        exact Or.inr (by rw [Buffered, hold']; simp)

/-- **One insertion** reports what is really missing exactly if no block on the way waits below a validated parent. -/
theorem insertBlock_missing_iff (hwf : Wf W t) (hW : W.Acyclic) (hb : W.Knows b.toSealedHeader)
    {sched : StateRoot.Schedule} {mw : Option ExecutionWitness} {head missing : BlockNumHash}
    (hr : (t.insertBlock sched b mw).1 = .ok (.inserted (.disconnected head missing))) :
    ReallyMissing t b (t.insertBlock sched b mw).2 missing ↔ t.ParentsPending b := by
  obtain ⟨l, hl, rfl⟩ := insertBlock_missing hwf hW hr
  have hunbuffered : ¬ t.Buffered l.parentHash := not_not.2 hl.parent_notBuffered
  constructor
  · intro h x hx
    by_cases hparent : t.Buffered x.parentHash
    · exact Or.inl hparent
    · obtain ⟨l', hl', -, hnumber⟩ := h.first
      have hxl := (BlockBuffer.lowest_iff.2 ⟨hx, not_not.1 hparent⟩).unique hl
      have hll := hl'.unique hl
      rw [hll] at hnumber
      rw [hxl]
      exact Or.inr ⟨h.unvalidated.1, by omega⟩
  · intro h
    have hi := insertBlock_inserts t sched b mw
    rw [hr] at hi
    obtain ⟨hblocks, hstored⟩ := hi.disconnected_frame
    obtain ⟨hnew, hpos⟩ := (h l (BlockBuffer.lowest_iff.1 hl).1).resolve_left hunbuffered
    refine ⟨⟨l, hl, rfl, Nat.sub_add_cancel hpos⟩, ⟨hunbuffered, ?_⟩, hnew, ?_⟩
    · intro hafter
      rcases hblocks _ hafter with heq | hbefore
      · exact hwf.buffer.lowest_ne hW hb hl heq
      · exact hunbuffered hbefore
    · exact fun hafter => hnew (hstored.subset hafter)

/-! ## What is downloaded -/

variable {sched : StateRoot.Schedule} {head missing : BlockNumHash}

/-- a payload that is disconnected is answered SYNCING, and what was reported is to be downloaded -/
theorem onNewPayload_requests {payload : E.validator.ExecutionData} {mw : Option ExecutionWitness}
    (hb : E.validator.ensureWellFormedPayload payload = .ok b) (hn : t.lookupInvalid (t.payloadCheck b) = none)
    (hr : (t.insertBlock sched b mw).1 = .ok (.inserted (.disconnected head missing))) :
    (t.onNewPayload sched payload mw).1 = .ok ⟨⟨.syncing, none⟩, some (TreeEvent.downloadBlock missing.hash)⟩ := by
  simp only [onNewPayload, hb]
  rw [show (if t.lowestBufferedAncestorOr b.hash = b.hash then b.parentHash
    else t.lowestBufferedAncestorOr b.hash) = t.payloadCheck b from rfl, checkInvalid_notFound b.hash hn]
  simp only [insertBlock_afterLookup, hr]

/-- likewise for a downloaded block -/
theorem onDownloadedBlock_requests {witness : ExecutionWitness}
    (hn : t.lookupInvalid (t.lowestBufferedAncestorOr b.hash) = none)
    (hr : (t.insertBlock sched b (some witness)).1 = .ok (.inserted (.disconnected head missing))) :
    (t.onDownloadedBlock sched b witness).1 =
      .ok ⟨⟨.syncing, none⟩, some (TreeEvent.downloadBlock missing.hash)⟩ := by
  simp only [onDownloadedBlock]
  rw [checkInvalid_notFound b.hash hn]
  simp only [insertBlock_afterLookup, hr]

/-- the block that is asked for is the one reported, where the invalid header cache has nothing against the block -/
def RequestsMissing (t : EngineTree E) (sched : StateRoot.Schedule) (b : Block) (mw : Option ExecutionWitness)
    (missing : BlockNumHash) : Prop :=
  (∀ payload, E.validator.ensureWellFormedPayload payload = .ok b → t.lookupInvalid (t.payloadCheck b) = none →
    (t.onNewPayload sched payload mw).1 = .ok ⟨⟨.syncing, none⟩, some (TreeEvent.downloadBlock missing.hash)⟩) ∧
  ∀ witness, mw = some witness → t.lookupInvalid (t.lowestBufferedAncestorOr b.hash) = none →
    (t.onDownloadedBlock sched b witness).1 = .ok ⟨⟨.syncing, none⟩, some (TreeEvent.downloadBlock missing.hash)⟩

/-- **When the missing ancestor is missing.** In every state that a run of the tree reaches, for every block that is
reported disconnected: what is reported, and then asked for, is really missing exactly if on the way to it no block
waits below a validated parent. -/
theorem missing_ancestor_iff (W : World) (hW : W.Acyclic) (database : RessDatabase) (ops : List (Op E))
    (hops : ∀ op ∈ ops, OpKnown W op) (b : Block) (hb : W.Knows b.toSealedHeader) :
    let t := Run.run step (launch E database W.genesis) ops
    ∀ sched mw head missing, (t.insertBlock sched b mw).1 = .ok (.inserted (.disconnected head missing)) →
      (ReallyMissing t b (t.insertBlock sched b mw).2 missing ↔ t.ParentsPending b) ∧
        RequestsMissing t sched b mw missing := by
  intro t sched mw head missing hr
  have hwf : Wf W t := (wf_launch W database).run hops
  refine ⟨insertBlock_missing_iff hwf hW hb hr, fun payload hpayload hn => onNewPayload_requests hpayload hn hr, ?_⟩
  rintro witness rfl hn
  exact onDownloadedBlock_requests hn hr

/-! ## Two branches -/

open Chain (mainBlock mainBlock_knows twoBranches)

/-- heights by hash -/
theorem twoBranches_number {d : B256} {x : SealedHeader} (hx : twoBranches.header d = some x) :
    x.number = if 1000 < d.toNat then d.toNat - 1000 else d.toNat - 1 := by
  simp only [twoBranches] at hx
  split_ifs at hx with hside hmain
  · rw [← Option.some.inj hx, if_pos hside.1]
    rfl
  · rw [← Option.some.inj hx, if_neg (by omega)]
    rfl

theorem twoBranches_acyclic : twoBranches.Acyclic := by
  apply World.acyclic_of_number
  intro d x y hx hy
  have hnumber := twoBranches_number hy
  simp only [twoBranches] at hx
  split_ifs at hx with hside hmain
  · rw [← Option.some.inj hx] at hnumber ⊢
    have hheight : d.toNat - 1000 = 1 ∨ d.toNat - 1000 = 2 := by omega
    rcases hheight with hheight | hheight
    · rw [hheight] at hnumber ⊢
      rw [hnumber]
      decide
    · rw [hheight] at hnumber ⊢
      rw [hnumber]
      decide
  · rw [← Option.some.inj hx] at hnumber ⊢
    have hparent : (mainBlock (d.toNat - 1)).parentHash.toNat = d.toNat - 1 := by
      show (BitVec.ofNat 256 (d.toNat - 1)).toNat = d.toNat - 1
      rw [BitVec.toNat_ofNat, Nat.mod_eq_of_lt (by omega)]
    have hself : (mainBlock (d.toNat - 1)).number = d.toNat - 1 := rfl
    have hpos : 0 < d.toNat - 1 := by
      by_contra hzero
      -- nothing hashes to the parent hash of genesis
      have hgenesis : d.toNat - 1 = 0 := by omega
      rw [← Option.some.inj hx, hgenesis] at hy
      cases twoBranches.genesis_root.symm.trans hy
    rw [hparent, if_neg (by omega)] at hnumber
    omega

/-- a block waits for its parent, which is not validated -/
theorem missing_ancestor_iff_pending :
    ReallyMissing (smallTree [smallPayload (mainBlock 2) smallWitness]) (mainBlock 3)
      ((smallTree [smallPayload (mainBlock 2) smallWitness]).insertBlock StateRoot.sortedSchedule (mainBlock 3) none).2
      (mainBlock 1).numHash := by
  have hreport : ((smallTree [smallPayload (mainBlock 2) smallWitness]).insertBlock StateRoot.sortedSchedule
      (mainBlock 3) none).1 = .ok (.inserted (.disconnected (mainBlock 0).numHash (mainBlock 1).numHash)) := by
    decide +kernel
  have hknown : ∀ op ∈ [smallPayload (mainBlock 2) smallWitness], OpKnown twoBranches op := by
    intro op hop
    rw [List.mem_singleton.1 hop]
    exact smallPayload_known (mainBlock_knows (by omega)) _
  have hiff := missing_ancestor_iff twoBranches twoBranches_acyclic ⟨∅, none, none⟩ _ hknown (mainBlock 3)
    (mainBlock_knows (by omega)) StateRoot.sortedSchedule none _ _ hreport
  have hpending : ParentsPending (smallTree [smallPayload (mainBlock 2) smallWitness]) (mainBlock 3) := by
    -- block 2 is the one buffered ancestor
    have hparent : (smallTree [smallPayload (mainBlock 2) smallWitness]).blockBuffer.blocks.get (mainBlock 3).parentHash =
        some (mainBlock 2) := by decide +kernel
    have hlast : (smallTree [smallPayload (mainBlock 2) smallWitness]).blockBuffer.blocks.get (mainBlock 2).parentHash =
        none := by decide +kernel
    intro x hx
    rcases Relation.ReflTransGen.cases_head hx with rfl | ⟨y, hy, hx⟩
    · exact Or.inl (by rw [Buffered, hparent]; simp)
    · cases hparent.symm.trans hy
      rcases Relation.ReflTransGen.cases_head hx with rfl | ⟨z, hz, -⟩
      · exact Or.inr ⟨ChainState.sealedHeader_none.1 (by decide +kernel), by decide⟩
      · cases hlast.symm.trans hz
  exact hiff.1.2 hpending

/-- a block whose parent is validated waits for its witness -/
def witnessAwaited : List (Op smallEnv) := [.newPayload StateRoot.sortedSchedule (mainBlock 1, none) none]

/-- **A validated block is asked for.** The child of the waiting block is disconnected, and genesis is to be
downloaded. -/
theorem validated_ancestor_requested :
    let t := smallTree witnessAwaited
    (∀ op ∈ witnessAwaited, OpKnown twoBranches op) ∧
      (t.insertBlock StateRoot.sortedSchedule (mainBlock 2) none).1 =
        .ok (.inserted (.disconnected (mainBlock 0).numHash (mainBlock 0).numHash)) ∧
      ¬ ReallyMissing t (mainBlock 2) (t.insertBlock StateRoot.sortedSchedule (mainBlock 2) none).2
        (mainBlock 0).numHash ∧
      (t.onNewPayload StateRoot.sortedSchedule (mainBlock 2, none) none).1 =
        .ok ⟨⟨.syncing, none⟩, some (TreeEvent.downloadBlock (mainBlock 0).hash)⟩ := by
  refine ⟨?_, by decide +kernel, ?_, by decide +kernel⟩
  · intro op hop
    rw [List.mem_singleton.1 hop]
    intro b hb
    cases hb
    exact mainBlock_knows (by omega)
  · intro h
    exact h.unvalidated.1 (ChainState.sealedHeader_isSome.1 (by decide +kernel))

end EngineTree

end Ress
