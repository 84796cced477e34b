/-
The sync target of the forkchoice tracker, and the blocks that the engine tree stores.

A payload's block is announced to the engine after its descendants have been connected, a downloaded block before that,
and a descendant is made canonical inside the loop. Whichever of them is the sync target, it has landed or its event is
handed to the engine, unless an insertion was fatal (`Announces`).
-/
import Ress.Tree.NewHead
import Ress.Tree.Judging

namespace Ress

deriving instance DecidableEq for Insertion

/-- the block that a call has stored -/
def Insertion.validated : Insertion → Option Block
  | ⟨block, _, _, .ok (.inserted .valid)⟩ => some block
  | _ => none

/-- the call ended in a fatal error -/
def Insertion.IsFatal (E : Env) (call : Insertion) : Prop :=
  ∃ kind fatal, call.result = .error kind ∧ E.ensureValidationError kind = .error fatal

namespace EngineTree

open Chain (Stage Since)

variable {E : Env} {W : World} {t t' t₁ t₂ : EngineTree E} {h : B256} {calls : List Insertion} {b : Block}
  {mw : Option ExecutionWitness} {sched : StateRoot.Schedule}

/-- the blocks that the calls have stored, in order -/
def validated (calls : List Insertion) : List Block := calls.filterMap (·.validated)

/-- what has been called and stored since `t`, where `h` is the sync target -/
structure Watches (W : World) (t : EngineTree E) (h : B256) (calls : List Insertion) (t' : EngineTree E) : Prop where
  buffer : BlockBuffer.Known W t'.blockBuffer
  target : t'.isSyncTargetHead h = true
  insertions : t'.insertions = t.insertions ++ calls
  since : Since W t.chain (validated calls) t'.chain

/-- the stage of `h` -/
abbrev At (t : EngineTree E) (h : B256) (calls : List Insertion) (t' : EngineTree E) (s : Stage) : Prop :=
  s.At t.chain h (validated calls) t'.chain

/-! ## One insertion -/

theorem validated_concat_valid (calls : List Insertion) (b : Block) (mw : Option ExecutionWitness) (codes : Finset B256) :
    validated (calls ++ [⟨b, mw, codes, .ok (.inserted .valid)⟩]) = validated calls ++ [b] := by
  simp [validated, Insertion.validated]

theorem validated_concat {r : Except InsertBlockErrorKind InsertPayloadOk} (hr : r ≠ .ok (.inserted .valid))
    (calls : List Insertion) (b : Block) (mw : Option ExecutionWitness) (codes : Finset B256) :
    validated (calls ++ [⟨b, mw, codes, r⟩]) = validated calls := by
  have hnone : Insertion.validated ⟨b, mw, codes, r⟩ = none := by
    unfold Insertion.validated
    split
    · rename_i heq
      cases heq
      exact absurd rfl hr
    · rfl
  simp [validated, hnone]

/-- what a call does to the chain -/
theorem Inserts.chain {r : Except InsertBlockErrorKind InsertPayloadOk} (hi : Inserts t b mw r t')
    (hb : W.Knows b.toSealedHeader) :
    (r = .ok (.inserted .valid) ∧ ¬ t.chain.state.Stored b.hash ∧ Chain.Child W t.chain.state b ∧
        ∃ w, t'.chain = { t.chain with state := t.chain.state.insertBlock b w }) ∨
      (r ≠ .ok (.inserted .valid) ∧ t'.chain = t.chain) := by
  cases hi with
  | alreadySeen => exact Or.inr ⟨by simp, rfl⟩
  | refused => exact Or.inr ⟨by simp, rfl⟩
  | disconnected => exact Or.inr ⟨by simp, rfl⟩
  | noWitness => exact Or.inr ⟨by simp, rfl⟩
  | valid w _ hnew hp => exact Or.inl ⟨rfl, hnew, ⟨hb, hp⟩, some w.stateWitness, rfl⟩

theorem Watches.inserts {r : Except InsertBlockErrorKind InsertPayloadOk} (hw : Watches W t h calls t')
    (hb : W.Knows b.toSealedHeader) (hi : Inserts t' b mw r t₁) :
    Watches W t h (calls ++ [⟨b, mw, t'.provider.database.bytecodes.keys, r⟩]) t₁ := by
  have hwf : Wf W t' := ⟨hw.since.toWf, hw.buffer⟩
  refine ⟨(hi.wf hwf hb).buffer, ?_, ?_, ?_⟩
  · rw [isSyncTargetHead_congr hi.tracker]
    exact hw.target
  · rw [hi.insertions, hw.insertions, List.append_assoc]
  · rcases hi.chain hb with ⟨rfl, -, hchild, w, hchain⟩ | ⟨hr, hchain⟩
    · rw [validated_concat_valid, hchain]
      exact hw.since.insertBlock hchild w
    · rw [validated_concat hr, hchain]
      exact hw.since

/-- **A call**: the stage stays, unless the call stores the block that is waited for. -/
theorem At.inserts {s : Stage} {r : Except InsertBlockErrorKind InsertPayloadOk} (hat : At t h calls t' s)
    (hw : Watches W t h calls t') (hb : W.Knows b.toSealedHeader) (hi : Inserts t' b mw r t₁) :
    ∃ s', At t h (calls ++ [⟨b, mw, t'.provider.database.bytecodes.keys, r⟩]) t₁ s' ∧
      (s' = s ∨ s = .waiting ∧ s' = .pending ∧ b.hash = h ∧ r = .ok (.inserted .valid)) := by
  rcases hi.chain hb with ⟨rfl, hnew, hchild, w, hchain⟩ | ⟨hr, hchain⟩
  · obtain ⟨s', hat', hs⟩ := hat.insertBlock hw.since hchild hnew w
    refine ⟨s', ?_, hs.imp_right fun ⟨hs, hs', hh⟩ => ⟨hs, hs', hh, rfl⟩⟩
    simp only [At, validated_concat_valid, hchain]
    exact hat'
  · refine ⟨s, ?_, Or.inl rfl⟩
    simp only [At, validated_concat hr, hchain]
    exact hat

/-- only the cache, the events or the buffer differ -/
theorem Watches.congr (hw : Watches W t h calls t') (hchain : t₁.chain = t'.chain)
    (htracker : t₁.forkchoiceStateTracker = t'.forkchoiceStateTracker) (hinsertions : t₁.insertions = t'.insertions)
    (hbuffer : BlockBuffer.Known W t₁.blockBuffer) : Watches W t h calls t₁ := by
  refine ⟨hbuffer, ?_, hinsertions.trans hw.insertions, ?_⟩
  · rw [isSyncTargetHead_congr htracker]
    exact hw.target
  · rw [hchain]
    exact hw.since

theorem At.of_chain {s : Stage} (hat : At t h calls t' s) (hchain : t₁.chain = t'.chain) : At t h calls t₁ s := by
  unfold At
  rw [hchain]
  exact hat

theorem Watches.withCache (hw : Watches W t h calls t') (cache : E.cache.Cache) :
    Watches W t h calls (t'.withCache cache) := hw.congr rfl rfl rfl hw.buffer

theorem Watches.fails (hw : Watches W t h calls t') {kind : InsertBlockErrorKind}
    {r : Except InsertBlockFatalError PayloadStatus} (hf : Fails t' b kind r t₁) :
    Watches W t h calls t₁ ∧ t₁.chain = t'.chain := by
  cases hf with
  | fatal => exact ⟨hw, rfl⟩
  | invalid text _ latestValidHash t₂ hforget =>
    have heq := hforget.withCache
    rw [heq]
    exact ⟨hw.withCache _, rfl⟩

theorem Watches.makeCanonical (hw : Watches W t h calls t') (target : B256) :
    Watches W t h calls (t'.makeCanonical target) := by
  obtain ⟨hbuffer, -, -, hinsertions, -⟩ := makeCanonical_frame t' target
  refine ⟨by rw [hbuffer]; exact hw.buffer, ?_, hinsertions.trans hw.insertions, ?_⟩
  · rw [isSyncTargetHead_congr (makeCanonical_tracker t' target)]
    exact hw.target
  · rw [makeCanonical_chain]
    exact hw.since.makeCanonical target

/-- the sync target is made canonical -/
theorem At.makeCanonical {s : Stage} (hat : At t h calls t' s) (hw : Watches W t h calls t') :
    At t h calls (t'.makeCanonical h) s.made := by
  unfold At
  rw [makeCanonical_chain]
  exact Stage.At.makeCanonical hat hw.since

/-- there is one sync target -/
theorem Watches.target_eq (hw : Watches W t h calls t') {hash : B256} (hh : t'.isSyncTargetHead hash = true) :
    hash = h := by
  have htarget := hw.target
  unfold isSyncTargetHead at htarget hh
  cases hs : E.tracker.syncTargetState t'.forkchoiceStateTracker with
  | none =>
    rw [hs] at hh
    cases hh
  | some target =>
    rw [hs] at htarget hh
    exact (of_decide_eq_true hh).symm.trans (of_decide_eq_true htarget)

/-! ## The loop over buffered descendants -/

/-- **The loop**: when it stores the sync target, it makes it canonical. Behind an error there is a fatal call. -/
theorem connectBlocks_stages (blocks : List (Block × ExecutionWitness)) {s : Stage} (hw : Watches W t h calls t')
    (hat : At t h calls t' s) (hknown : ∀ x ∈ blocks, W.Knows x.1.toSealedHeader) :
    ∃ more s', Watches W t h (calls ++ more) (connectBlocks sched blocks t').2 ∧
      At t h (calls ++ more) (connectBlocks sched blocks t').2 s' ∧ (s' = s ∨ s' = .landed) ∧
      ∀ fatal, (connectBlocks sched blocks t').1 = .error fatal → ∃ call ∈ more, call.IsFatal E := by
  induction blocks generalizing calls t' s with
  | nil =>
    refine ⟨[], s, ?_, ?_, Or.inl rfl, fun fatal hf => ?_⟩
    · rwa [List.append_nil]
    · rwa [List.append_nil]
    · cases hf
  | cons x blocks ih =>
    obtain ⟨child, w⟩ := x
    have hchild := hknown _ List.mem_cons_self
    have hrest : ∀ x ∈ blocks, W.Knows x.1.toSealedHeader := fun x hx => hknown x (List.mem_cons_of_mem _ hx)
    have hi := insertBlock_inserts t' sched child (some w)
    -- what the rest of the loop does, once this round is noted
    have hround : ∀ {call : Insertion} {t₂ : EngineTree E} {s₁ : Stage}, Watches W t h (calls ++ [call]) t₂ →
        At t h (calls ++ [call]) t₂ s₁ → (s₁ = s ∨ s₁ = .landed) →
        ∃ more s', Watches W t h (calls ++ more) (connectBlocks sched blocks t₂).2 ∧
          At t h (calls ++ more) (connectBlocks sched blocks t₂).2 s' ∧ (s' = s ∨ s' = .landed) ∧
          ∀ fatal, (connectBlocks sched blocks t₂).1 = .error fatal → ∃ call ∈ more, call.IsFatal E := by
      intro call t₂ s₁ hw₂ hat₂ hs₁
      obtain ⟨more, s', hw', hat', hs', hfatal⟩ := ih hw₂ hat₂ hrest
      rw [List.append_assoc, List.singleton_append] at hw' hat'
      refine ⟨call :: more, s', hw', hat', ?_, fun fatal hf => ?_⟩
      · rcases hs' with rfl | rfl
        · exact hs₁
        · exact Or.inr rfl
      · obtain ⟨call', hmem, hcall⟩ := hfatal fatal hf
        exact ⟨call', List.mem_cons_of_mem _ hmem, hcall⟩
    unfold connectBlocks
    cases hr : t'.insertBlock sched child (some w) with
    | mk result t₁ =>
      rw [hr] at hi
      have hw₁ := hw.inserts hchild hi
      obtain ⟨s₁, hat₁, hs₁⟩ := hat.inserts hw hchild hi
      cases result with
      | ok result =>
        simp only
        split_ifs with hcond
        · have hh := hw₁.target_eq hcond.1
          rw [hh]
          refine hround (hw₁.makeCanonical h) (hat₁.makeCanonical hw₁) ?_
          rcases hs₁ with rfl | ⟨-, rfl, -⟩
          · cases s₁
            · exact Or.inl rfl
            · exact Or.inr rfl
            · exact Or.inr rfl
          · exact Or.inr rfl
        · refine hround hw₁ hat₁ ?_
          rcases hs₁ with rfl | ⟨-, -, rfl, hv⟩
          · exact Or.inl rfl
          · exact absurd ⟨hw₁.target, Except.ok.inj hv⟩ hcond
      | error kind =>
        have hsame : s₁ = s := by
          rcases hs₁ with hs₁ | ⟨-, -, -, hv⟩
          · exact hs₁
          · cases hv
        subst hsame
        have hf := onInsertBlockError_fails t₁ child kind
        simp only
        cases hr₂ : t₁.onInsertBlockError child kind with
        | mk answer t₂ =>
          rw [hr₂] at hf
          obtain ⟨hw₂, hchain⟩ := hw₁.fails hf
          have hat₂ := hat₁.of_chain hchain
          cases answer with
          | ok status => exact hround hw₂ hat₂ (Or.inl rfl)
          | error fatal =>
            refine ⟨_, s₁, hw₂, hat₂, Or.inl rfl, fun _ _ => ⟨_, List.mem_singleton_self _, kind, fatal, rfl, ?_⟩⟩
            cases hf with
            | fatal _ herr => exact herr

theorem tryConnect_stages (sched : StateRoot.Schedule) {s : Stage} (hw : Watches W t h calls t')
    (hat : At t h calls t' s) (hash : B256) :
    ∃ more s', Watches W t h (calls ++ more) (t'.tryConnectBufferedBlocks sched hash).2 ∧
      At t h (calls ++ more) (t'.tryConnectBufferedBlocks sched hash).2 s' ∧ (s' = s ∨ s' = .landed) ∧
      ∀ fatal, (t'.tryConnectBufferedBlocks sched hash).1 = .error fatal → ∃ call ∈ more, call.IsFatal E := by
  have hwf : Wf W t' := ⟨hw.since.toWf, hw.buffer⟩
  obtain ⟨htake, hknown⟩ := hwf.takeFor sched.order hash
  have hw' : Watches W t h calls (t'.takeFor sched.order hash) := hw.congr rfl rfl rfl htake.buffer
  exact connectBlocks_stages (t'.takenFor sched.order hash) hw' hat hknown

/-! ## A block received -/

/-- a block has been received: a call was fatal, or the sync target is not waiting to be made canonical, or it is and
that is the event -/
def Announces (W : World) (t : EngineTree E) (h : B256) (calls : List Insertion) (answer : Answer)
    (t' : EngineTree E) : Prop :=
  ∃ more, Watches W t h (calls ++ more) t' ∧
    (∀ target, announced answer = some (.makeCanonical target) → target = h) ∧
    ((∃ call ∈ more, call.IsFatal E) ∨
      ∃ s, At t h (calls ++ more) t' s ∧ (s = .pending → announced answer = some (.makeCanonical h)))

/-- an answer without an event -/
theorem Announces.quiet {more : List Insertion} {s : Stage} {answer : Answer} (hw : Watches W t h (calls ++ more) t')
    (hat : At t h (calls ++ more) t' s) (hs : s ≠ .pending)
    (hanswer : ∀ target, announced answer ≠ some (.makeCanonical target)) : Announces W t h calls answer t' :=
  ⟨more, hw, fun target ht => absurd ht (hanswer target), Or.inr ⟨s, hat, fun hp => absurd hp hs⟩⟩

/-- a failed insertion -/
theorem Announces.failed {kind : InsertBlockErrorKind} {codes : Finset B256} {s : Stage}
    (hw : Watches W t h (calls ++ [⟨b, mw, codes, .error kind⟩]) t')
    (hat : At t h (calls ++ [⟨b, mw, codes, .error kind⟩]) t' s) (hs : s ≠ .pending) :
    Announces W t h calls ((t'.onInsertBlockError b kind).1.map TreeOutcome.new) (t'.onInsertBlockError b kind).2 := by
  have hf := onInsertBlockError_fails t' b kind
  cases hr : t'.onInsertBlockError b kind with
  | mk answer t₁ =>
    rw [hr] at hf
    obtain ⟨hw₁, hchain⟩ := hw.fails hf
    have hat₁ := hat.of_chain hchain
    cases answer with
    | ok status => exact Announces.quiet hw₁ hat₁ hs (by rintro target ⟨⟩)
    | error fatal =>
      refine ⟨_, hw₁, by rintro target ⟨⟩, Or.inl ⟨_, List.mem_singleton_self _, kind, fatal, rfl, ?_⟩⟩
      cases hf with
      | fatal _ herr => exact herr

/-- a block that is stored, and its descendants -/
theorem Announces.connected {call : Insertion} {s : Stage} (hw : Watches W t h (calls ++ [call]) t')
    (hat : At t h (calls ++ [call]) t' s) (hs : s = .pending → b.hash = h)
    {answer : Except InsertBlockFatalError Unit} (status : PayloadStatus) {target : Bool}
    (hr : t'.tryConnectBufferedBlocks sched b.hash = (answer, t₁)) (htarget : target = true ↔ b.hash = h) :
    Announces W t h calls
      (answer.map fun _ => ⟨status, if target = true then some (TreeEvent.makeCanonical b.hash) else none⟩) t₁ := by
  obtain ⟨more, s', hw', hat', hs', hfatal⟩ := tryConnect_stages sched hw hat b.hash
  rw [hr] at hw' hat' hfatal
  rw [List.append_assoc, List.singleton_append] at hw' hat'
  refine ⟨call :: more, hw', ?_, ?_⟩
  · cases answer with
    | error fatal => rintro hash ⟨⟩
    | ok _ =>
      intro hash hevent
      by_cases hh : b.hash = h
      · simp only [announced, Except.map, Except.toOption, Option.bind, htarget.2 hh, if_true] at hevent
        cases hevent
        exact hh
      · simp [announced, Except.map, Except.toOption, htarget, hh] at hevent
  · cases answer with
    | error fatal =>
      obtain ⟨call', hmem, hcall⟩ := hfatal fatal rfl
      exact Or.inl ⟨call', List.mem_cons_of_mem _ hmem, hcall⟩
    | ok _ =>
      refine Or.inr ⟨s', hat', fun hp => ?_⟩
      have hh : b.hash = h := by
        rcases hs' with rfl | hland
        · exact hs hp
        · cases hp.symm.trans hland
      simp only [announced, Except.map, Except.toOption, Option.bind, htarget.2 hh, if_true, hh]

theorem Watches.forgets (hw : Watches W t h calls t') (hf : Forgets t' t₁) : Watches W t h calls t₁ := by
  rw [hf.withCache]
  exact hw.withCache _

/-- a block that the invalid header cache rejects -/
theorem Announces.rejected {s : Stage} (hw : Watches W t h calls t') (hat : At t h calls t' s) (hs : s ≠ .pending)
    (check hash : B256) (header : BlockWithParent) :
    let r := (t'.afterLookup check).prepareInvalidResponse header.parent
    Announces W t h calls (.ok (TreeOutcome.new r.1))
      (r.2.withCache (E.cache.insertWithInvalidAncestor r.2.invalidHeaders hash header)) := by
  have hf := prepareInvalidResponse_forgets (t'.afterLookup check) header.parent
  have hw₁ := ((hw.withCache (E.cache.get t'.invalidHeaders check).2).forgets hf).withCache
    (E.cache.insertWithInvalidAncestor ((t'.afterLookup check).prepareInvalidResponse header.parent).2.invalidHeaders
      hash header)
  have hat₁ := hat.of_chain hf.chain
  rw [← List.append_nil calls] at hw₁ hat₁
  exact Announces.quiet hw₁ hat₁ hs (by rintro target ⟨⟩)

theorem Watches.target_iff (hw : Watches W t h calls t') (hash : B256) : t'.isSyncTargetHead hash = true ↔ hash = h := by
  refine ⟨hw.target_eq, ?_⟩
  rintro rfl
  exact hw.target

/-- **A payload.** -/
theorem onNewPayload_announces {s : Stage} (hw : Watches W t h calls t') (hat : At t h calls t' s) (hs : s ≠ .pending)
    (sched : StateRoot.Schedule) (payload : E.validator.ExecutionData) (mw : Option ExecutionWitness)
    (hknown : ∀ b, E.validator.ensureWellFormedPayload payload = .ok b → W.Knows b.toSealedHeader) :
    Announces W t h calls (t'.onNewPayload sched payload mw).1 (t'.onNewPayload sched payload mw).2 := by
  rcases onNewPayload_cases t' sched payload mw with ⟨error, status, -, hanswer, -, hf⟩ | ⟨b, hb, -⟩
  · have hw₁ := hw.forgets hf
    have hat₁ := hat.of_chain hf.chain
    rw [← List.append_nil calls] at hw₁ hat₁
    rw [hanswer]
    exact Announces.quiet hw₁ hat₁ hs (by rintro target ⟨⟩)
  · have hb' := hknown b hb
    simp only [onNewPayload, hb]
    rw [show (if t'.lowestBufferedAncestorOr b.hash = b.hash then b.parentHash
      else t'.lowestBufferedAncestorOr b.hash) = t'.payloadCheck b from rfl]
    cases hn : t'.lookupInvalid (t'.payloadCheck b) with
    | some header =>
      rw [checkInvalid_found b.hash hn]
      exact Announces.rejected hw hat hs _ _ header
    | none =>
      rw [checkInvalid_notFound b.hash hn]
      have hi := insertBlock_inserts (t'.afterLookup (t'.payloadCheck b)) sched b mw
      have hw₀ : Watches W t h calls (t'.afterLookup (t'.payloadCheck b)) := hw.withCache _
      have hat₀ : At t h calls (t'.afterLookup (t'.payloadCheck b)) s := hat.of_chain rfl
      simp only
      cases hr : (t'.afterLookup (t'.payloadCheck b)).insertBlock sched b mw with
      | mk result t₁ =>
        rw [hr] at hi
        have hw₁ := hw₀.inserts hb' hi
        obtain ⟨s₁, hat₁, hs₁⟩ := hat₀.inserts hw₀ hb' hi
        have hpend : s₁ = .pending → b.hash = h ∧ result = .ok (.inserted .valid) := by
          intro hp
          rcases hs₁ with rfl | ⟨-, -, hh, hv⟩
          · exact absurd hp hs
          · exact ⟨hh, hv⟩
        cases result with
        | error kind =>
          have hfailed := Announces.failed hw₁ hat₁ fun hp => by cases (hpend hp).2
          simp only
          cases hk : t₁.onInsertBlockError b kind with
          | mk answer t₂ =>
            rw [hk] at hfailed
            cases answer <;> exact hfailed
        | ok result =>
          cases hk : t₁.tryConnectBufferedBlocks sched b.hash with
          | mk answer t₂ =>
            -- the sync target is asked for after the descendants are connected
            obtain ⟨more, s₂, hw₂, -⟩ := tryConnect_stages sched hw₁ hat₁ b.hash
            rw [hk] at hw₂
            have hconnected := Announces.connected hw₁ hat₁ (fun hp => (hpend hp).1) ⟨.valid, some b.hash⟩ hk
              (hw₂.target_iff b.hash)
            cases result with
            | alreadySeen =>
              simp only [hk]
              cases answer <;> exact hconnected
            | inserted status =>
              cases status with
              | valid =>
                simp only [hk]
                cases answer <;> exact hconnected
              | disconnected head missing =>
                exact Announces.quiet hw₁ hat₁ (fun hp => by cases (hpend hp).2) (by rintro target ⟨⟩)
              | noWitness =>
                exact Announces.quiet hw₁ hat₁ (fun hp => by cases (hpend hp).2) (by rintro target ⟨⟩)

/-- **A downloaded block.** -/
theorem onDownloadedBlock_announces {s : Stage} (hw : Watches W t h calls t') (hat : At t h calls t' s)
    (hs : s ≠ .pending) (sched : StateRoot.Schedule) (hb : W.Knows b.toSealedHeader) (w : ExecutionWitness) :
    Announces W t h calls (t'.onDownloadedBlock sched b w).1 (t'.onDownloadedBlock sched b w).2 := by
  simp only [onDownloadedBlock]
  generalize t'.lowestBufferedAncestorOr b.hash = check
  cases hn : t'.lookupInvalid check with
  | some header =>
    rw [checkInvalid_found b.hash hn]
    exact Announces.rejected hw hat hs _ _ header
  | none =>
    rw [checkInvalid_notFound b.hash hn]
    have hi := insertBlock_inserts (t'.afterLookup check) sched b (some w)
    have hw₀ : Watches W t h calls (t'.afterLookup check) := hw.withCache _
    have hat₀ : At t h calls (t'.afterLookup check) s := hat.of_chain rfl
    simp only
    cases hr : (t'.afterLookup check).insertBlock sched b (some w) with
    | mk result t₁ =>
      rw [hr] at hi
      have hw₁ := hw₀.inserts hb hi
      obtain ⟨s₁, hat₁, hs₁⟩ := hat₀.inserts hw₀ hb hi
      have hpend : s₁ = .pending → b.hash = h ∧ result = .ok (.inserted .valid) := by
        intro hp
        rcases hs₁ with rfl | ⟨-, -, hh, hv⟩
        · exact absurd hp hs
        · exact ⟨hh, hv⟩
      cases result with
      | error kind =>
        have hfailed := Announces.failed hw₁ hat₁ fun hp => by cases (hpend hp).2
        simp only
        cases hk : t₁.onInsertBlockError b kind with
        | mk answer t₂ =>
          rw [hk] at hfailed
          cases answer <;> exact hfailed
      | ok result =>
        cases result with
        | alreadySeen => exact Announces.quiet hw₁ hat₁ (fun hp => by cases (hpend hp).2) (by rintro target ⟨⟩)
        | inserted status =>
          cases status with
          | valid =>
            simp only
            cases hk : t₁.tryConnectBufferedBlocks sched b.hash with
            | mk answer t₂ =>
              have hconnected := Announces.connected hw₁ hat₁ (fun hp => (hpend hp).1)
                ⟨.valid, some b.hash⟩ hk (hw₁.target_iff b.hash)
              cases answer <;> exact hconnected
          | disconnected head missing =>
            exact Announces.quiet hw₁ hat₁ (fun hp => by cases (hpend hp).2) (by rintro target ⟨⟩)
          | noWitness => exact Announces.quiet hw₁ hat₁ (fun hp => by cases (hpend hp).2) (by rintro target ⟨⟩)

/-! ## A block that is stored already -/

/-- it changes nothing of the chain, and has no event -/
theorem onDownloadedBlock_seen (t : EngineTree E) (sched : StateRoot.Schedule) (b : Block) (w : ExecutionWitness)
    (hstored : t.Stored b.hash) :
    (t.onDownloadedBlock sched b w).2.chain = t.chain ∧ announced (t.onDownloadedBlock sched b w).1 = none := by
  have hseen : ∀ t₁ : EngineTree E, t₁.chain = t.chain →
      (t₁.insertBlock sched b (some w)).1 = .ok .alreadySeen ∧ (t₁.insertBlock sched b (some w)).2.chain = t.chain := by
    intro t₁ hchain
    have hs : (t₁.provider.sealedHeader b.hash).isSome = true := by
      have hstored₁ : t₁.chain.state.Stored b.hash := by
        rw [hchain]
        exact hstored
      exact ChainState.sealedHeader_isSome.2 hstored₁
    simp only [insertBlock, tryInsertBlock, hs, if_true, true_and]
    exact hchain
  simp only [onDownloadedBlock]
  generalize t.lowestBufferedAncestorOr b.hash = check
  cases hn : t.lookupInvalid check with
  | some header =>
    rw [checkInvalid_found b.hash hn]
    exact ⟨(prepareInvalidResponse_forgets (t.afterLookup check) header.parent).chain, rfl⟩
  | none =>
    rw [checkInvalid_notFound b.hash hn]
    obtain ⟨hresult, hchain⟩ := hseen (t.afterLookup check) rfl
    simp only
    cases hr : (t.afterLookup check).insertBlock sched b (some w) with
    | mk result t₁ =>
      rw [hr] at hresult hchain
      simp only at hresult
      subst hresult
      exact ⟨hchain, rfl⟩

end EngineTree

end Ress
