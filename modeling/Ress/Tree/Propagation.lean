/-
What becomes of the descendants of a block that is known to be invalid.

From a block, following the parents that are in the buffer ends at a hash that is recorded as invalid (`EndsInvalid`).
Both entry points look up one hash. It is that end when the block itself is in the buffer. When it is not,
`on_new_payload` looks up the parent, also where the parent is in the buffer and its own ancestor is the invalid block,
and `on_downloaded_block` looks up the block itself.

- `payloadCheck_found_iff`, `downloadCheck_found_iff`: when the lookup finds an entry.
- `Judges.propagates_iff`: a block is rejected and recorded exactly if it does, or if the block fails on its own.
- `descendants_rejected_iff`, `known_invalid_downloaded_again`: every state of every run, and one in which both miss it.
-/
import Ress.Tree.Judging
import Ress.Tree.Verdicts

namespace Ress

namespace EngineTree

open BlockBuffer (Lowest)

variable {E : Env} {W : World} {t t' : EngineTree E} {sched : StateRoot.Schedule} {d : Block}
  {mw : Option ExecutionWitness} {answer : Answer}

/-- following buffered parents from the block ends at a hash that is recorded as invalid -/
def EndsInvalid (t : EngineTree E) (d : Block) : Prop :=
  ∃ l, Lowest t.blockBuffer d l ∧ t.invalidHeader l.parentHash ≠ none

/-- the block is answered INVALID without a request for a download, it is recorded, and the buffer stays as it is -/
structure Propagates (t : EngineTree E) (d : Block) (answer : Answer) (t' : EngineTree E) : Prop where
  invalid : ∃ status, answer = .ok (TreeOutcome.new status) ∧ status.IsInvalid
  recorded : t'.invalidHeader d.hash ≠ none
  buffer : t'.blockBuffer = t.blockBuffer

/-- the block fails its own validation -/
def RefusesInvalid (t : EngineTree E) (sched : StateRoot.Schedule) (d : Block) (mw : Option ExecutionWitness) : Prop :=
  ∃ kind text, t.Refuses sched d mw kind ∧ E.ensureValidationError kind = .ok text

/-- a copy of the block is in the buffer -/
def Buffered (t : EngineTree E) (hash : B256) : Prop := t.blockBuffer.blocks.get hash ≠ none

/-! ## A block that is judged -/

theorem Inserts.blockBuffer_of_error {kind : InsertBlockErrorKind} (hi : Inserts t d mw (.error kind) t') :
    t'.blockBuffer = t.blockBuffer := by
  cases hi
  rfl

/-- **When a rejection propagates.** The hash looked up is recorded, or the block fails on its own. -/
theorem Judges.propagates_iff (hmarks : E.cache.Marks) (hfinds : E.cache.Finds) {check : B256}
    (hj : Judges t sched check d mw answer t') :
    Propagates t d answer t' ↔ t.invalidHeader check ≠ none ∨ t.RefusesInvalid sched d mw := by
  have hlookup : t.lookupInvalid check = t.invalidHeader check := hfinds t.invalidHeaders check
  cases hj with
  | rejected header hh =>
    have hbuffer := (prepareInvalidResponse_forgets (t.afterLookup check) header.parent).blockBuffer
    refine iff_of_true ⟨⟨_, rfl, _, rfl⟩, ?_, hbuffer⟩ (Or.inl ?_)
    · exact hmarks.insertWith _ d.hash header
    · rw [← hlookup, hh]
      simp
  | failed kind text hn hr hv =>
    have hforget := latestValidHash_forgets (t.afterInsertion sched check d mw) d.parentHash
    refine iff_of_true ⟨⟨_, rfl, _, rfl⟩, ?_, hforget.blockBuffer.trans ?_⟩ (Or.inr ⟨kind, text, insertBlock_error hr, hv⟩)
    · exact hmarks.insert _ d.blockWithParent
    · have hi := insertBlock_inserts t sched d mw
      rw [hr] at hi
      exact hi.blockBuffer_of_error
  | passed hn hr ha =>
    refine iff_of_false ?_ ?_
    · rintro ⟨⟨status, rfl, hinvalid⟩, -, -⟩
      exact ha _ rfl hinvalid
    · rintro (hrecorded | ⟨kind, text, hrefuses, hv⟩)
      · exact hrecorded (hlookup.symm.trans hn)
      · obtain ⟨fatal, hfatal⟩ := hr kind hrefuses.insertBlock
        cases hv.symm.trans hfatal

/-! ## The hash that is looked up -/

/-- the lowest buffered ancestor of a buffered block is where following the parents ends -/
theorem lowestBufferedAncestorOr_buffered (hwf : Wf W t) (hd : W.Knows d.toSealedHeader) {l : Block}
    (hl : Lowest t.blockBuffer d l) (hb : t.Buffered d.hash) : t.lowestBufferedAncestorOr d.hash = l.parentHash := by
  obtain ⟨c, hc⟩ := Option.ne_none_iff_exists'.1 hb
  obtain ⟨hhash, hknows⟩ := hwf.buffer.blocks d.hash c hc
  have hheader : c.toSealedHeader = d.toSealedHeader := hknows.eq hd hhash
  obtain ⟨l', hl', hparent⟩ := hl.sibling (c := c) (by rw [hheader])
  rw [lowestBufferedAncestorOr, hl'.lowestAncestor hc, Option.map_some, Option.getD_some, hparent]

/-- what `on_new_payload` looks up -/
theorem payloadCheck_found_iff (hwf : Wf W t) (hd : W.Knows d.toSealedHeader) (hends : t.EndsInvalid d) :
    t.invalidHeader (t.payloadCheck d) ≠ none ↔
      t.Buffered d.hash ∨ ¬ t.Buffered d.parentHash ∨ t.invalidHeader d.parentHash ≠ none := by
  obtain ⟨l, hl, hinvalid⟩ := hends
  by_cases hb : t.Buffered d.hash
  · have hcheck := lowestBufferedAncestorOr_buffered hwf hd hl hb
    have hne : l.parentHash ≠ d.hash := fun heq => hb (heq ▸ hl.parent_notBuffered)
    refine iff_of_true ?_ (Or.inl hb)
    rw [payloadCheck, hcheck, if_neg hne]
    exact hinvalid
  · rw [payloadCheck, if_pos (lowestBufferedAncestorOr_unbuffered (not_not.1 hb))]
    refine ⟨fun h => Or.inr (Or.inr h), ?_⟩
    rintro (hb' | hp | hrecorded)
    · exact absurd hb' hb
    · cases hl with
      | here => exact hinvalid
      | up hp' => exact absurd (by rw [Buffered, hp']; simp) hp
    · exact hrecorded

/-- what `on_downloaded_block` looks up -/
theorem downloadCheck_found_iff (hwf : Wf W t) (hd : W.Knows d.toSealedHeader) (hends : t.EndsInvalid d) :
    t.invalidHeader (t.lowestBufferedAncestorOr d.hash) ≠ none ↔ t.Buffered d.hash ∨ t.invalidHeader d.hash ≠ none := by
  obtain ⟨l, hl, hinvalid⟩ := hends
  by_cases hb : t.Buffered d.hash
  · rw [lowestBufferedAncestorOr_buffered hwf hd hl hb]
    exact iff_of_true hinvalid (Or.inl hb)
  · rw [lowestBufferedAncestorOr_unbuffered (not_not.1 hb), or_iff_right hb]

/-! ## Runs -/

/-- **When invalidity propagates.** In every state that a run of the tree reaches, for a block that is not stored and
from which following the buffered parents ends at a hash recorded as invalid. -/
theorem descendants_rejected_iff (W : World) (database : RessDatabase) (hmarks : E.cache.Marks)
    (hfinds : E.cache.Finds) (ops : List (Op E)) (hops : ∀ op ∈ ops, OpKnown W op) (d : Block)
    (hd : W.Knows d.toSealedHeader) :
    let t := Run.run step (launch E database W.genesis) ops
    ¬ t.Stored d.hash → t.EndsInvalid d →
      (∀ sched payload mw, E.validator.ensureWellFormedPayload payload = .ok d →
        (Propagates t d (t.onNewPayload sched payload mw).1 (t.onNewPayload sched payload mw).2 ↔
          (t.Buffered d.hash ∨ ¬ t.Buffered d.parentHash ∨ t.invalidHeader d.parentHash ≠ none) ∨
            t.RefusesInvalid sched d mw)) ∧
      ∀ sched witness,
        (Propagates t d (t.onDownloadedBlock sched d witness).1 (t.onDownloadedBlock sched d witness).2 ↔
          (t.Buffered d.hash ∨ t.invalidHeader d.hash ≠ none) ∨ t.RefusesInvalid sched d (some witness)) := by
  intro t hnew hends
  have hwf : Wf W t := (wf_launch W database).run hops
  constructor
  · intro sched payload mw hpayload
    have hjudges := onNewPayload_judges t sched mw hpayload
    rw [hjudges.propagates_iff hmarks hfinds, payloadCheck_found_iff hwf hd hends]
  · intro sched witness
    have hjudges := onDownloadedBlock_judges t sched d witness
    rw [hjudges.propagates_iff hmarks hfinds, downloadCheck_found_iff hwf hd hends]

/-- a child of a rejected block that is in the buffer -/
def rejectedBelow : List (Op smallEnv) :=
  [smallPayload (Chain.mainBlock 2) smallWitness, smallPayload (Chain.mainBlock 1) junkWitness]

theorem rejectedBelow_known : ∀ op ∈ rejectedBelow, OpKnown Chain.twoBranches op := by
  intro op hop
  simp only [rejectedBelow, List.mem_cons, List.not_mem_nil, or_false] at hop
  rcases hop with rfl | rfl
  · exact smallPayload_known (Chain.mainBlock_knows (by omega)) _
  · exact smallPayload_known (Chain.mainBlock_knows (by omega)) _

theorem mainBlock_two_endsInvalid : (smallTree rejectedBelow).EndsInvalid (Chain.mainBlock 2) :=
  ⟨Chain.mainBlock 2, Lowest.here (by decide +kernel), by decide +kernel⟩

theorem mainBlock_three_endsInvalid : (smallTree rejectedBelow).EndsInvalid (Chain.mainBlock 3) :=
  ⟨Chain.mainBlock 2, Lowest.up (by decide +kernel) (Lowest.here (by decide +kernel)), by decide +kernel⟩

/-- the buffered child is found by both -/
theorem descendants_rejected_buffered :
    Propagates (smallTree rejectedBelow) (Chain.mainBlock 2)
      ((smallTree rejectedBelow).onDownloadedBlock StateRoot.sortedSchedule (Chain.mainBlock 2) smallWitness).1
      ((smallTree rejectedBelow).onDownloadedBlock StateRoot.sortedSchedule (Chain.mainBlock 2) smallWitness).2 := by
  have hnew : ¬ (smallTree rejectedBelow).Stored (Chain.mainBlock 2).hash :=
    ChainState.sealedHeader_none.1 (by decide +kernel)
  have hbuffered : (smallTree rejectedBelow).blockBuffer.blocks.get (Chain.mainBlock 2).hash ≠ none := by
    decide +kernel
  have hiff := descendants_rejected_iff Chain.twoBranches ⟨∅, none, none⟩ smallCache_marks smallCache_finds
    rejectedBelow rejectedBelow_known (Chain.mainBlock 2) (Chain.mainBlock_knows (by omega)) hnew mainBlock_two_endsInvalid
  exact (hiff.2 StateRoot.sortedSchedule smallWitness).2 (Or.inl (Or.inl hbuffered))

/-- **A known invalid block is asked for again.** The child of the buffered child is answered SYNCING, in both ways, and
the rejected block is to be downloaded. -/
theorem known_invalid_downloaded_again :
    let t := smallTree rejectedBelow
    (∀ op ∈ rejectedBelow, OpKnown Chain.twoBranches op) ∧ t.EndsInvalid (Chain.mainBlock 3) ∧
      ¬ t.Stored (Chain.mainBlock 3).hash ∧
      t.invalidHeader (Chain.mainBlock 1).hash ≠ none ∧
      (t.onNewPayload StateRoot.sortedSchedule (Chain.mainBlock 3, none) (some smallWitness)).1 =
        .ok ⟨⟨.syncing, none⟩, some (TreeEvent.downloadBlock (Chain.mainBlock 1).hash)⟩ ∧
      (t.onDownloadedBlock StateRoot.sortedSchedule (Chain.mainBlock 3) smallWitness).1 =
        .ok ⟨⟨.syncing, none⟩, some (TreeEvent.downloadBlock (Chain.mainBlock 1).hash)⟩ :=
  ⟨rejectedBelow_known, mainBlock_three_endsInvalid, ChainState.sealedHeader_none.1 (by decide +kernel),
    by decide +kernel, by decide +kernel, by decide +kernel⟩

end EngineTree

end Ress
