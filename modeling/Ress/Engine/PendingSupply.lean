/-
Every block of the buffer waits for something.

A buffered block is inserted once its parent is validated, and its witness and bytecodes are there. The engine requests
the witness of a payload that it buffers without one, and the bytecodes that are missing for a witness that arrives. But
a payload takes the witness of its hash out of the buffer before anything is known of it.

- `Supplied`: the witness of a block is stored and its missing bytecodes are awaited, or the witness is awaited.
- `Provided M`: there is a witness for every buffered block, or one will come, but for the blocks in `M` and those that
  are validated.
- `runs_supplied`: every buffered block that is neither validated nor known invalid is supplied, in every state of a run
  that stays clear of a few steps.
- `malformed_takes_witness`: a run in which a malformed payload takes the witness of a buffered block for good.
- `malformed_keeps_buffer_iff`: a malformed payload changes nothing in the buffer, unless such a witness is there.
-/
import Ress.Engine.BufferRuns
import Ress.Engine.PendingOnly

namespace Ress

namespace EngineTree

open BlockBuffer (Frees EmptyAt SameAt)

variable {E : Env} {t t' : EngineTree E} {d d' : EngineDownloader} {M M' : Set B256} {b : Block} {k : B256}

/-- the witness is stored, or it is requested and has not been handed out -/
def HasWitness (t : EngineTree E) (d : EngineDownloader) (k : B256) : Prop :=
  (∃ w, t.blockBuffer.witnesses.get k = some w) ∨ d.AwaitsWitness k

/-- the block waits for its parent, for bytecodes that are under way, or for a witness that is -/
def Supplied (t : EngineTree E) (d : EngineDownloader) (k : B256) : Prop :=
  ((∃ w, t.blockBuffer.witnesses.get k = some w) ∧ ∀ c ∈ t.blockBuffer.missing k, d.AwaitsBytecode c) ∨
    d.AwaitsWitness k

/-- every block of the buffer that is neither validated nor in the invalid cache is supplied -/
def AllSupplied (t : EngineTree E) (d : EngineDownloader) : Prop :=
  ∀ k b, t.blockBuffer.blocks.get k = some b → ¬ t.Stored k → t.invalidHeader k = none → t.Supplied d k

/-- the hashes in the invalid cache -/
def marked (t : EngineTree E) : Set B256 := {k | t.invalidHeader k ≠ none}

/-- the buffered blocks outside `M` are validated or have a witness coming, and missing bytecodes are awaited -/
structure Provided (d : EngineDownloader) (M : Set B256) (t : EngineTree E) : Prop where
  keyed : t.blockBuffer.Keyed
  codes : ∀ k, ∀ c ∈ t.blockBuffer.missing k, d.AwaitsBytecode c
  pending : ∀ k b, t.blockBuffer.blocks.get k = some b → t.Stored k ∨ k ∈ M ∨ t.HasWitness d k

theorem Provided.allSupplied (h : Provided d t.marked t) : t.AllSupplied d := by
  intro k b hb hnew hvalid
  rcases h.pending k b hb with hstored | hmarked | hw | hawaits
  · exact absurd hstored hnew
  · exact absurd hvalid hmarked
  · exact Or.inl ⟨hw, h.codes k⟩
  · exact Or.inr hawaits

theorem Provided.mono (h : Provided d M t) (hM : ∀ k b, t.blockBuffer.blocks.get k = some b → k ∈ M →
    t.Stored k ∨ k ∈ M' ∨ t.HasWitness d k) : Provided d M' t := by
  refine ⟨h.keyed, h.codes, fun k b hb => ?_⟩
  rcases h.pending k b hb with hstored | hk | hw
  · exact Or.inl hstored
  · exact hM k b hb hk
  · exact Or.inr (Or.inr hw)

theorem Provided.grows (h : Provided d M t) (hg : EngineDownloader.Grows d d') : Provided d' M t :=
  ⟨h.keyed, fun k c hc => hg.awaitsBytecode (h.codes k c hc), fun k b hb =>
    (h.pending k b hb).imp_right fun hk => hk.imp_right fun hw => hw.imp_right hg.awaitsWitness⟩

/-- blocks leave the buffer with their witnesses, and none leaves the store of which a copy stays -/
theorem Provided.frees (h : Provided d M t) (hfrees : Frees t.blockBuffer t'.blockBuffer)
    (hstored : ∀ k b, t'.blockBuffer.blocks.get k = some b → t.Stored k → t'.Stored k) : Provided d M t' := by
  refine ⟨hfrees.keyed h.keyed, ?_, ?_⟩
  · intro k c hc
    rcases hfrees k with hsame | hempty
    · exact h.codes k c (hsame.missing ▸ hc)
    · rw [hempty.missing] at hc
      cases Finset.notMem_empty c hc
  · intro k b hb
    have hsame := hfrees.same_of_block hb
    rcases h.pending k b (hsame.block.symm.trans hb) with hk | hk | ⟨w, hw⟩ | hk
    · exact Or.inl (hstored k b hb hk)
    · exact Or.inr (Or.inl hk)
    · exact Or.inr (Or.inr (Or.inl ⟨w, hsame.witness.trans hw⟩))
    · exact Or.inr (Or.inr (Or.inr hk))

/-- **One insertion.** A block that is buffered comes with its witness, or is excepted. -/
theorem Provided.inserts (h : Provided d M t) {mw : Option ExecutionWitness}
    {r : Except InsertBlockErrorKind InsertPayloadOk} (hi : Inserts t b mw r t') (hmw : mw ≠ none ∨ b.hash ∈ M) :
    Provided d M t' := by
  have hstored := hi.storedHashes_sub.1
  rcases hi.effects with ⟨hbuffer, -⟩ | ⟨-, hbuffer, -⟩ | ⟨-, hbuffer, -⟩
  · exact h.frees (hbuffer ▸ Frees.rfl' _) fun k _ _ hk => hstored hk
  · exact h.frees (hbuffer ▸ Frees.rfl' _) fun k _ _ hk => hstored hk
  · refine ⟨hi.keyed h.keyed, ?_, ?_⟩
    · intro k c hc
      rw [hbuffer] at hc
      by_cases hk : k = b.hash
      · subst hk
        rw [(bufferWith_self t b mw).2.2] at hc
        exact h.codes _ c hc
      · rcases bufferWith_other t b mw hk with hsame | hempty
        · exact h.codes k c (hsame.missing ▸ hc)
        · rw [hempty.missing] at hc
          cases Finset.notMem_empty c hc
    · intro k x hx
      unfold HasWitness
      rw [hbuffer] at hx ⊢
      by_cases hk : k = b.hash
      · subst hk
        rcases hmw with hmw | hM
        · obtain ⟨w, rfl⟩ := Option.ne_none_iff_exists'.1 hmw
          exact Or.inr (Or.inr (Or.inl ⟨w, (bufferWith_self t b (some w)).2.1⟩))
        · exact Or.inr (Or.inl hM)
      · rcases bufferWith_other t b mw hk with hsame | hempty
        · rcases h.pending k x (hsame.block.symm.trans hx) with hk | hk | ⟨w, hw⟩ | hk
          · exact Or.inl (hstored hk)
          · exact Or.inr (Or.inl hk)
          · exact Or.inr (Or.inr (Or.inl ⟨w, hsame.witness.trans hw⟩))
          · exact Or.inr (Or.inr (Or.inr hk))
        · cases hempty.block.symm.trans hx

theorem Provided.framed (d : EngineDownloader) (M : Set B256) : Framed (E := E) (Provided d M) where
  keyed h := h.keyed
  cache h := ⟨h.keyed, h.codes, h.pending⟩
  makeCanonical {t} target h := by
    have hframe := makeCanonical_frame t target
    refine h.frees (hframe.1 ▸ Frees.rfl' _) fun k _ _ hk => ?_
    exact (makeCanonical_storedHashes t target).symm.subset hk
  frees hf h := h.frees hf fun _ _ _ hk => hk
  inserts hi _ h := h.inserts hi (Or.inl (by simp))

/-- **A payload** leaves every other block supplied. -/
theorem Provided.onNewPayload (h : Provided d M t) (sched : StateRoot.Schedule) (payload : E.validator.ExecutionData) :
    Provided d (insert (E.validator.blockHash payload) M) (t.afterPayload sched payload).2 := by
  unfold afterPayload witnessTaken takenWitness
  generalize hhash : E.validator.blockHash payload = hash
  obtain ⟨hremoves, -, hblocks⟩ := BlockBuffer.removeWitness_removes t.blockBuffer hash
  have htake : Provided d (insert hash M) (t.withBuffer (t.blockBuffer.removeWitness hash).2) := by
    refine ⟨fun k b hb => h.keyed k b (hblocks ▸ hb), ?_, ?_⟩
    · intro k c hc
      by_cases hk : k = hash
      · subst hk
        cases hw : (t.blockBuffer.removeWitness k).1 with
        | none => exact h.codes k c ((BlockBuffer.removeWitness_same hw).missing ▸ hc)
        | some w =>
          change c ∈ (t.blockBuffer.removeWitness k).2.missing k at hc
          rw [(BlockBuffer.removeWitness_taken hw).2] at hc
          cases Finset.notMem_empty c hc
      · exact h.codes k c ((BlockBuffer.removeWitness_other t.blockBuffer hk).missing ▸ hc)
    · intro k b hb
      by_cases hk : k = hash
      · exact Or.inr (Or.inl (Or.inl hk))
      · have hsame := BlockBuffer.removeWitness_other t.blockBuffer hk
        rcases h.pending k b (hsame.block.symm.trans hb) with hs | hM | ⟨w, hw⟩ | hawaits
        · exact Or.inl hs
        · exact Or.inr (Or.inl (Or.inr hM))
        · exact Or.inr (Or.inr (Or.inl ⟨w, hsame.witness.trans hw⟩))
        · exact Or.inr (Or.inr (Or.inr hawaits))
  refine (Provided.framed d _).onNewPayload htake sched payload _ ?_
  intro b cache t₂ hb _ hi
  refine ((Provided.framed d _).cache htake).inserts hi (Or.inr ?_)
  rw [E.validator.wellFormed_hash payload b hb, hhash]
  exact Set.mem_insert _ _

/-- a downloaded block is buffered -/
theorem Provided.insertBlock (h : Provided d M t) (hb : t.Stored b.hash ∨ b.hash ∈ M ∨ t.HasWitness d b.hash) :
    Provided d M (t.withBuffer (t.blockBuffer.insertBlock b)) := by
  obtain ⟨hfrees, hself⟩ := BlockBuffer.insertBlock_frees t.blockBuffer b
  refine ⟨h.keyed.insertBlock b, ?_, ?_⟩
  · intro k c hc
    rcases hfrees k with hsame | hempty
    · exact h.codes k c (hsame.missing ▸ hc)
    · change c ∈ (t.blockBuffer.insertBlock b).missing k at hc
      rw [hempty.missing] at hc
      cases Finset.notMem_empty c hc
  · intro k x hx
    have hsame := hfrees.same_of_block hx
    have hwitness : t.HasWitness d k → HasWitness (t.withBuffer (t.blockBuffer.insertBlock b)) d k :=
      fun hw => hw.imp_left fun ⟨w, hw⟩ => ⟨w, hsame.witness.trans hw⟩
    rcases BlockBuffer.insertBlock_blocks hx with ⟨rfl, rfl⟩ | ⟨-, hx⟩
    · exact hb.imp_right fun hM => hM.imp_right hwitness
    · exact (h.pending k x hx).imp_right fun hk => hk.imp_right hwitness

/-- a witness arrives, and the bytecodes that are missing for it are requested -/
theorem Provided.insertWitness (hkeyed : t.blockBuffer.Keyed)
    (hcodes : ∀ k, ∀ c ∈ t.blockBuffer.missing k, d.AwaitsBytecode c) {hash : B256} {w : ExecutionWitness}
    {missing : Finset B256} (hmissing : ∀ c ∈ missing, d.AwaitsBytecode c)
    (hothers : ∀ k b, k ≠ hash → t.blockBuffer.blocks.get k = some b → t.Stored k ∨ k ∈ M ∨ t.HasWitness d k) :
    Provided d M (t.withBuffer (t.blockBuffer.insertWitness hash w missing)) := by
  refine ⟨hkeyed, ?_, ?_⟩
  · intro k c hc
    change c ∈ (t.blockBuffer.insertWitness hash w missing).missing k at hc
    rw [BlockBuffer.missing_insertWitness] at hc
    split_ifs at hc
    · exact hmissing c hc
    · exact hcodes k c hc
  · intro k b hb
    by_cases hk : k = hash
    · subst hk
      exact Or.inr (Or.inr (Or.inl ⟨w, FMap.get_set_self _ _ _⟩))
    · refine (hothers k b hk hb).imp_right fun hM => hM.imp_right fun hw => hw.imp_left ?_
      rintro ⟨w', hw'⟩
      exact ⟨w', (FMap.get_set_ne _ _ hk).trans hw'⟩

/-- a payload that takes the witness of a buffered block, which is not validated and has no other witness coming, is well
formed, and its block is not given up with a fatal error -/
def PayloadKeeps (t : EngineTree E) (d : EngineDownloader) (sched : StateRoot.Schedule)
    (payload : E.validator.ExecutionData) : Prop :=
  ∀ w, (t.blockBuffer.removeWitness (E.validator.blockHash payload)).1 = some w →
    (∃ b, t.blockBuffer.blocks.get (E.validator.blockHash payload) = some b) →
    ¬ t.Stored (E.validator.blockHash payload) → ¬ d.AwaitsWitness (E.validator.blockHash payload) →
    ∃ b, E.validator.ensureWellFormedPayload payload = .ok b ∧
      (t.lookupInvalid (t.payloadCheck b) = none → ∀ kind fatal, t.Refuses sched b (some w) kind →
        E.ensureValidationError kind ≠ .error fatal)

/-- **The payload's own block** is supplied as well, once the engine has followed the event of the payload. -/
theorem Provided.payload_settles (h : Provided d M t) {sched : StateRoot.Schedule} {payload : E.validator.ExecutionData}
    {hash : B256} (hhash : E.validator.blockHash payload = hash) (hkeeps : t.PayloadKeeps d sched payload)
    (hgrows : EngineDownloader.Grows d d') {answer : Answer} {t₂ : EngineTree E}
    (hleaves : Leaves (t.witnessTaken payload) sched payload (t.takenWitness payload) answer t₂)
    (hstored : t.Stored hash → t₂.Stored hash)
    (hrequests : ∀ event, t.takenWitness payload = none → answer = .ok ⟨⟨.syncing, none⟩, some event⟩ →
      (event = TreeEvent.downloadWitness hash ∨ ∃ hash, event = TreeEvent.downloadBlock hash) → d'.AwaitsWitness hash)
    (hb : t₂.blockBuffer.blocks.get hash = some b) :
    t₂.Stored hash ∨ hash ∈ M ∪ t₂.marked ∨ t₂.HasWitness d' hash := by
  subst hhash
  obtain ⟨-, -, hblocks⟩ := BlockBuffer.removeWitness_removes t.blockBuffer (E.validator.blockHash payload)
  -- where the buffer stays as it is, so does the supply, unless the witness is taken
  have hsame : t₂.blockBuffer = (t.witnessTaken payload).blockBuffer →
      (∀ w, t.takenWitness payload = some w → ∀ b', E.validator.ensureWellFormedPayload payload = .ok b' →
        ¬ (t.lookupInvalid (t.payloadCheck b') = none → ∀ kind fatal, t.Refuses sched b' (some w) kind →
          E.ensureValidationError kind ≠ .error fatal)) →
      t₂.Stored (E.validator.blockHash payload) ∨ E.validator.blockHash payload ∈ M ∪ t₂.marked ∨
        t₂.HasWitness d' (E.validator.blockHash payload) := by
    intro hbuffer hlost
    rw [hbuffer] at hb
    have hold := (congrArg (fun m => m.get (E.validator.blockHash payload)) hblocks).symm.trans hb
    cases hw : t.takenWitness payload with
    | none =>
      rcases h.pending _ b hold with hs | hM | ⟨w, hwit⟩ | hawaits
      · exact Or.inl (hstored hs)
      · exact Or.inr (Or.inl (Or.inl hM))
      · refine Or.inr (Or.inr (Or.inl ⟨w, ?_⟩))
        rw [hbuffer]
        exact (BlockBuffer.removeWitness_same hw).witness.trans hwit
      · exact Or.inr (Or.inr (Or.inr (hgrows.awaitsWitness hawaits)))
    | some w =>
      by_cases hs : t.Stored (E.validator.blockHash payload)
      · exact Or.inl (hstored hs)
      · by_cases hawaits : d.AwaitsWitness (E.validator.blockHash payload)
        · exact Or.inr (Or.inr (Or.inr (hgrows.awaitsWitness hawaits)))
        · obtain ⟨b', hb', hnofatal⟩ := hkeeps w hw ⟨b, hold⟩ hs hawaits
          exact absurd hnofatal (hlost w hw b' hb')
  cases hleaves with
  | malformed hm hbuffer => exact hsame hbuffer fun _ _ b' hb' => absurd hb' (hm b')
  | stored hs => exact Or.inl hs
  | marked hk => exact Or.inr (Or.inl (Or.inr hk))
  | fatal hb' hn hr hf hbuffer =>
    refine hsame hbuffer fun w hw b'' hb'' hnofatal => ?_
    cases hb'.symm.trans hb''
    rw [hw] at hr
    rw [payloadCheck_withBuffer t _ hblocks] at hn
    exact hnofatal hn _ _ hr hf
  | kept hw => exact Or.inr (Or.inr (Or.inl ⟨_, hw⟩))
  | requests hmw ha he => exact Or.inr (Or.inr (Or.inr (hrequests _ hmw ha he)))

end EngineTree

namespace ConsensusEngine

open EngineDownloader (Grows)
open EngineTree (Provided PayloadKeeps Follows HasWitness Wf Stored.keeps)

variable {E : Env} {e : ConsensusEngine E} {M : Set B256} {W : World}

/-! ## Messages and outcomes -/

/-- the payload gives back the witness that it takes, or uses it -/
def MessageKeeps (t : EngineTree E) (d : EngineDownloader) (sched : StateRoot.Schedule) : BeaconEngineMessage E → Prop
  | .newPayload payload _ => t.PayloadKeeps d sched payload
  | _ => True

theorem follows_frame {t t' : EngineTree E} (hf : Follows t t') :
    t'.blockBuffer = t.blockBuffer ∧ t'.marked = t.marked ∧ t'.storedHashes = t.storedHashes := by
  cases hf with
  | same => exact ⟨rfl, rfl, rfl⟩
  | made target =>
    have hframe := EngineTree.makeCanonical_frame t target
    refine ⟨hframe.1, ?_, EngineTree.makeCanonical_storedHashes t target⟩
    simp only [EngineTree.marked, EngineTree.invalidHeader, hframe.2.2.1]

/-- a payload leaves every block supplied that is not known invalid -/
theorem onNewPayload_provided (hmarks : E.cache.Marks) (h : Provided e.downloader M e.tree) (sched : StateRoot.Schedule)
    {payload : E.validator.ExecutionData} (tx : ℕ) (hkeeps : e.tree.PayloadKeeps e.downloader sched payload) :
    Provided (e.onEngineMessage sched (.newPayload payload tx)).downloader
      (M ∪ (e.onEngineMessage sched (.newPayload payload tx)).tree.marked)
      (e.onEngineMessage sched (.newPayload payload tx)).tree := by
  have hgrows := onEngineMessage_grows e sched (.newPayload payload tx)
  have hfollows := onEngineMessage_payload e sched payload tx
  obtain ⟨hbuffer, hmarked, hstoredHashes⟩ := follows_frame hfollows
  have hothers := h.onNewPayload sched payload
  have hafter : Provided (e.onEngineMessage sched (.newPayload payload tx)).downloader
      (insert (E.validator.blockHash payload) M) (e.onEngineMessage sched (.newPayload payload tx)).tree :=
    Provided.grows (hfollows.keeps (fun target => (Provided.framed _ _).makeCanonical target hothers) hothers) hgrows
  have hleaves := EngineTree.onNewPayload_leaves hmarks (e.tree.witnessTaken payload) sched payload
    (e.tree.takenWitness payload)
  have hstored : e.tree.Stored (E.validator.blockHash payload) →
      (e.tree.afterPayload sched payload).2.Stored (E.validator.blockHash payload) := by
    intro hs
    rcases EngineTree.onNewPayload_cases (e.tree.witnessTaken payload) sched payload (e.tree.takenWitness payload) with
      ⟨_, _, -, -, -, hf⟩ | ⟨_, -, hr⟩
    · exact (Stored.keeps _).forgets hf hs
    · exact (Stored.keeps _).receives hr trivial hs
  refine hafter.mono fun k b hb hk => ?_
  rcases hk with rfl | hk
  · have hsettles := h.payload_settles rfl hkeeps hgrows hleaves hstored
      (fun _ => onEngineMessage_requests e sched payload tx) (hbuffer ▸ hb)
    rcases hsettles with hs | hk | hw
    · exact Or.inl (hstoredHashes.symm.subset hs)
    · rw [hmarked]
      exact Or.inr (Or.inl hk)
    · unfold HasWitness at hw ⊢
      rw [hbuffer]
      exact Or.inr (Or.inr hw)
  · exact Or.inr (Or.inl (Or.inl hk))

/-- **A message** leaves every block supplied that is not known invalid. -/
theorem onEngineMessage_provided (hmarks : E.cache.Marks) (h : Provided e.downloader M e.tree) (hwf : Wf W e.tree)
    {history : List B256} (haged : BlockBuffer.Aged 256 history Set.univ e.tree.blockBuffer)
    (sched : StateRoot.Schedule) {message : BeaconEngineMessage E}
    (hkeeps : MessageKeeps e.tree e.downloader sched message) :
    Provided (e.onEngineMessage sched message).downloader (M ∪ (e.onEngineMessage sched message).tree.marked)
      (e.onEngineMessage sched message).tree := by
  have hgrows := onEngineMessage_grows e sched message
  cases message with
  | newPayload payload tx => exact onNewPayload_provided hmarks h sched tx hkeeps
  | forkchoiceUpdated state attrs tx version =>
    refine Provided.mono (Provided.grows ?_ hgrows) fun k _ _ hk => Or.inr (Or.inl (Or.inl hk))
    refine onEngineMessage_framed (Provided.framed e.downloader M) e sched _ h (fun _ _ hm => by cases hm) ?_
    intro state answer t t' hu htrack
    have hupdate := h.frees hu.shrinks.frees fun k b hb hk => hu.stored_of_buffered hwf haged hb hk
    refine hupdate.frees (htrack.blockBuffer ▸ BlockBuffer.Frees.rfl' _) fun k _ _ hk => ?_
    unfold EngineTree.Stored
    rw [htrack.provider]
    exact hk
  | transitionConfigurationExchanged => exact h.mono fun k _ _ hk => Or.inr (Or.inl (Or.inl hk))

/-- a downloaded block has its witness, or it is awaited, unless the block is validated already or in `M` -/
def OutcomeSupplied (t : EngineTree E) (d : EngineDownloader) (M : Set B256) : DownloadData → Prop
  | .fullBlock block => E.tryRecover block = true → t.Stored block.hash ∨ block.hash ∈ M ∨ t.HasWitness d block.hash
  | _ => True

/-- **The receipt of an outcome.** What is handed out is awaited no more; all else is. -/
theorem receiveOutcome_provided {d : EngineDownloader} (h : Provided d M e.tree) (sched : StateRoot.Schedule)
    {data : DownloadData}
    (hwitness : ∀ k, d.AwaitsWitness k → e.downloader.AwaitsWitness k ∨ ∃ w, data = .witness k w)
    (hcode : ∀ c, d.AwaitsBytecode c → e.downloader.AwaitsBytecode c ∨ ∃ code, data = .bytecode c code)
    (hwrite : e.tree.provider.database.writeError = none) (hsupplied : OutcomeSupplied e.tree e.downloader M data)
    {unlocked : Finset B256} (hok : (e.receiveOutcome sched data).1 = .ok unlocked) :
    Provided (e.receiveOutcome sched data).2.downloader M (e.receiveOutcome sched data).2.tree := by
  have hcodes : (∀ c code, data ≠ .bytecode c code) →
      ∀ k, ∀ c ∈ e.tree.blockBuffer.missing k, e.downloader.AwaitsBytecode c := by
    intro hother k c hc
    rcases hcode c (h.codes k c hc) with hc | ⟨code, heq⟩
    · exact hc
    · exact absurd heq (hother c code)
  have hpending : (∀ k w, data ≠ .witness k w) → ∀ k b, e.tree.blockBuffer.blocks.get k = some b →
      e.tree.Stored k ∨ k ∈ M ∨ e.tree.HasWitness e.downloader k := by
    intro hother k b hb
    refine (h.pending k b hb).imp_right fun hk => hk.imp_right fun hw => hw.imp_right fun hawaits => ?_
    rcases hwitness k hawaits with hk | ⟨w, heq⟩
    · exact hk
    · exact absurd heq (hother k w)
  have hsame : (∀ k w, data ≠ .witness k w) → (∀ c code, data ≠ .bytecode c code) →
      Provided e.downloader M e.tree := fun hw hc => ⟨h.keyed, hcodes hc, hpending hw⟩
  have hothers : ∀ {blockHash witness}, data = .witness blockHash witness → ∀ k b, k ≠ blockHash →
      e.tree.blockBuffer.blocks.get k = some b → e.tree.Stored k ∨ k ∈ M ∨ e.tree.HasWitness e.downloader k := by
    rintro blockHash witness rfl k b hne hb
    refine (h.pending k b hb).imp_right fun hk => hk.imp_right fun hw => hw.imp_right fun hawaits => ?_
    rcases hwitness k hawaits with hk | ⟨w, heq⟩
    · exact hk
    · cases heq
      exact absurd rfl hne
  have hreceived := receiveOutcome_received e sched data
  generalize e.receiveOutcome sched data = received at hreceived hok ⊢
  cases hreceived with
  | @finalized block ancestors hrecover =>
    have hold := hsame (fun _ _ heq => by cases heq) fun _ _ heq => by cases heq
    refine hold.frees (BlockBuffer.Frees.rfl' _) fun k b _ hk => ?_
    exact (EngineTree.onFinalizedBlock_stored e.tree block ancestors k).2 (Or.inr hk)
  | unrecovered hrecover => cases hok
  | buffered hrecover =>
    have hold := hsame (fun _ _ heq => by cases heq) fun _ _ heq => by cases heq
    exact hold.insertBlock (hsupplied hrecover)
  | dropped hrecover => exact hsame (fun _ _ heq => by cases heq) fun _ _ heq => by cases heq
  | lookupFailed hmissing => cases hok
  | @complete blockHash witness hmissing =>
    refine Provided.insertWitness h.keyed (hcodes fun _ _ heq => by cases heq) ?_ (hothers rfl)
    exact fun c hc => absurd hc (Finset.notMem_empty c)
  | @incomplete blockHash witness missing hmissing hne =>
    have hcodes := hcodes fun _ _ heq => by cases heq
    obtain ⟨hgrows, hawaits⟩ := EngineDownloader.downloadBytecodes_awaits (sched.order.list missing) e.downloader
    refine Provided.insertWitness h.keyed (fun k c hc => hgrows.awaitsBytecode (hcodes k c hc)) ?_ ?_
    · exact fun c hc => hawaits c ((sched.order.mem missing c).2 hc)
    · intro k b hne hb
      exact (hothers rfl k b hne hb).imp_right fun hM => hM.imp_right fun hw => hw.imp_right hgrows.awaitsWitness
  | @bytecode codeHash bytecode =>
    have hpending := hpending fun _ _ heq => by cases heq
    have hinsert : e.tree.provider.insertBytecode codeHash bytecode = .ok { e.tree.provider with
        database := { e.tree.provider.database with
          bytecodes := e.tree.provider.database.bytecodes.set codeHash bytecode } } := by
      simp only [RessProvider.insertBytecode, RessDatabase.insertBytecode, hwrite]
      rfl
    simp only
    unfold EngineTree.onBytecode
    rw [hinsert]
    refine ⟨h.keyed, ?_, hpending⟩
    intro k c hc
    change c ∈ (e.tree.blockBuffer.onBytecodeReceived codeHash).2.missing k at hc
    rw [BlockBuffer.missing_onBytecodeReceived] at hc
    obtain ⟨hne, hold⟩ := Finset.mem_erase.1 hc
    rcases hcode c (h.codes k c hold) with hc | ⟨code, heq⟩
    · exact hc
    · cases heq
      exact absurd rfl hne

/-- **One unlocked block** leaves the others supplied. -/
theorem insertUnlocked_provided (h : Provided e.downloader M e.tree) (sched : StateRoot.Schedule) (hash : B256) :
    Provided (e.insertUnlocked sched hash).downloader M (e.insertUnlocked sched hash).tree := by
  have hframed := Provided.framed (E := E) e.downloader M
  refine Provided.grows ?_ (insertUnlocked_grows e sched hash)
  exact insertUnlocked_framed hframed e sched hash h.keyed
    (hframed.frees (BlockBuffer.removeBlock_frees e.tree.blockBuffer hash) h)

end ConsensusEngine

namespace Node

open EngineTree (Provided AllSupplied HasWitness marked)
open ConsensusEngine (MessageKeeps OutcomeSupplied)

variable {E : Env} {W : World}

/-- the hashes in the invalid cache that it does not forget in this step -/
def remembered (n : Node E) (event : NodeEvent E) : Set B256 :=
  n.engine.tree.marked ∩ (n.step event).engine.tree.marked

/-- the invalid cache forgets no buffered block that has no witness coming; a downloaded block has one when it arrives,
or is in the cache and not forgotten either; and a payload gives back the witness of a buffered block, or uses it -/
def EventSupplies (n : Node E) (event : NodeEvent E) : Prop :=
  (∀ k b, n.engine.tree.blockBuffer.blocks.get k = some b → ¬ n.engine.tree.HasWitness n.engine.downloader k →
      k ∈ n.engine.tree.marked → k ∈ n.remembered event) ∧
    ∀ io, event = .poll io →
      (∀ data, n.engine.delivered io = some data →
          OutcomeSupplied (n.engine.afterPoll io).tree (n.engine.afterPoll io).downloader (n.remembered event) data) ∧
        ∀ message, n.engine.handles io = some message →
          MessageKeeps (n.engine.afterPoll io).tree (n.engine.afterPoll io).downloader io.sched message

theorem provided_step {n : Node E} (hmarks : E.cache.Marks) (hgrounded : Grounded W n)
    (h : Provided n.engine.downloader n.engine.tree.marked n.engine.tree) {event : NodeEvent E}
    (hwrite : ∀ io, event = .poll io → io.writeError = none) (hsupplies : EventSupplies n event)
    (hlive : (n.step event).terminated = none) :
    Provided (n.step event).engine.downloader (n.step event).engine.tree.marked (n.step event).engine.tree := by
  obtain ⟨hremembers, hclear⟩ := hsupplies
  -- the blocks that only the invalid cache excepts are among those it does not forget
  generalize hM : n.remembered event = M at hremembers hclear
  have hbefore : Provided n.engine.downloader M n.engine.tree := by
    refine h.mono fun k b hb hk => ?_
    by_cases hw : n.engine.tree.HasWitness n.engine.downloader k
    · exact Or.inr (Or.inr hw)
    · exact Or.inr (Or.inl (hremembers k b hb hw hk))
  have hmore : ∀ {t : EngineTree E} {d}, Provided d M t → Provided d (M ∪ t.marked) t :=
    fun ht => ht.mono fun k _ _ hk => Or.inr (Or.inl (Or.inl hk))
  have hidle : ∀ io, n.engine.delivered io = none →
      Provided (n.engine.afterPoll io).downloader M (n.engine.afterPoll io).tree := by
    intro io hnone
    refine ⟨hbefore.keyed, fun k c hc => ?_, fun k b hb => ?_⟩
    · rcases EngineDownloader.poll_bytecode io.network (hbefore.codes k c hc) with hc | ⟨code, hdata⟩
      · exact hc
      · cases hnone.symm.trans hdata
    · refine (hbefore.pending k b hb).imp_right fun hk => hk.imp_right fun hw => hw.imp_right fun hawaits => ?_
      rcases EngineDownloader.poll_witness io.network hawaits with hk | ⟨w, hdata⟩
      · exact hk
      · cases hnone.symm.trans hdata
  have hafter : Provided (n.step event).engine.downloader (M ∪ (n.step event).engine.tree.marked)
      (n.step event).engine.tree := by
    refine step_live (P := fun x => Provided x.2 (M ∪ x.1.marked) x.1) n event (fun _ => hmore hbefore)
      (fun io _ hnone => hmore (hidle io hnone)) ?_ ?_ hlive
    · rintro io e message rfl hhandles hcore
      have htree : e.tree = (n.engine.afterPoll io).tree := congrArg Prod.fst hcore
      have hdownloader : e.downloader = (n.engine.afterPoll io).downloader := congrArg Prod.snd hcore
      obtain ⟨history, haged⟩ := hgrounded.fed.tree.aged
      apply ConsensusEngine.onEngineMessage_provided (W := W) hmarks
      · rw [htree, hdownloader]
        exact hidle io (ConsensusEngine.handles_delivered hhandles)
      · rw [htree]
        exact ⟨hgrounded.wf.chain, hgrounded.wf.buffer⟩
      · rw [htree]
        exact haged
      · rw [htree, hdownloader]
        exact (hclear io rfl).2 message hhandles
    · rintro io data rfl hdata hok
      refine hmore ?_
      refine ConsensusEngine.onDownloadOutcome_ok (P := fun _ e => Provided e.downloader M e.tree) _ io.sched data ?_
        (fun e hash _ he => ConsensusEngine.insertUnlocked_provided he io.sched hash) hok
      intro unlocked hreceived
      have hpolled : Provided n.engine.downloader M (n.engine.afterPoll io).tree :=
        ⟨hbefore.keyed, hbefore.codes, hbefore.pending⟩
      refine ConsensusEngine.receiveOutcome_provided hpolled io.sched ?_ ?_ (hwrite io rfl)
        ((hclear io rfl).1 data hdata) hreceived
      · intro k hk
        rcases EngineDownloader.poll_witness io.network hk with hk | ⟨w, hpoll⟩
        · exact Or.inl hk
        · exact Or.inr ⟨w, Option.some.inj (hdata.symm.trans hpoll)⟩
      · intro c hc
        rcases EngineDownloader.poll_bytecode io.network hc with hc | ⟨code, hpoll⟩
        · exact Or.inl hc
        · exact Or.inr ⟨code, Option.some.inj (hdata.symm.trans hpoll)⟩
  refine hafter.mono fun k b _ hk => Or.inr (Or.inl ?_)
  rcases hk with hk | hk
  · rw [← hM] at hk
    exact hk.2
  · exact hk

/-- **Every buffered block waits for something**: in every state of a live node, a block of the buffer that is neither
validated nor in the invalid cache is supplied. This is so in every run in which a payload gives back the witness of a
buffered block or uses it, a downloaded block has its witness coming unless it is known invalid, and the invalid cache
forgets no block that has none. -/
theorem runs_supplied (W : World) (hmarks : E.cache.Marks) (database : RessDatabase) (events : List (NodeEvent E))
    (hknown : Run.AllSteps step (EventKnown W) (launch E database W.genesis) events)
    (hwrites : ∀ io, .poll io ∈ events → io.writeError = none)
    (hevents : Run.AllSteps step EventSupplies (launch E database W.genesis) events) :
    Run.Always step (fun n => n.terminated = none → AllSupplied n.engine.tree n.engine.downloader)
      (launch E database W.genesis) events := by
  have hstart : Provided (launch E database W.genesis).engine.downloader
      (launch E database W.genesis).engine.tree.marked (launch E database W.genesis).engine.tree := by
    refine ⟨fun k b hb => absurd hb ?_, fun k c hc => absurd hc ?_, fun k b hb => absurd hb ?_⟩
    · simp [launch, ConsensusEngine.launch, EngineTree.launch, EngineTree.new, BlockBuffer.new]
    · simp [launch, ConsensusEngine.launch, EngineTree.launch, EngineTree.new, BlockBuffer.new, BlockBuffer.missing]
    · simp [launch, ConsensusEngine.launch, EngineTree.launch, EngineTree.new, BlockBuffer.new]
  have hwrite : ∀ event ∈ events, ∀ io, event = .poll io → io.writeError = none := by
    rintro event hmem io rfl
    exact hwrites io hmem
  have hsteps := ((Run.allSteps_of_mem hwrite (launch E database W.genesis)).and hknown).and hevents
  refine Run.run_always (I := fun n => Grounded W n ∧
    (n.terminated = none → Provided n.engine.downloader n.engine.tree.marked n.engine.tree)) ?_ ?_
    ⟨grounded_launch W database, fun _ => hstart⟩ hsteps
  · rintro n event ⟨hgrounded, h⟩ ⟨⟨hwrite, hknown⟩, hsupplies⟩
    refine ⟨hgrounded.step hknown, fun hlive => ?_⟩
    exact provided_step hmarks hgrounded (h (live_before hlive)) hwrite hsupplies hlive
  · rintro n ⟨-, h⟩ hlive
    exact (h hlive).allSupplied

/-! ## A block that nothing releases -/

open Chain (mainBlock mainBlock_knows twoBranches)

/-- nothing is marked, so nothing is forgotten -/
theorem supplies_unmarked {n : Node smallEnv} {event : NodeEvent smallEnv}
    (hkeys : (smallCache.entries n.engine.tree.invalidHeaders).keys = ∅)
    (hclear : ∀ io, event = .poll io →
      (∀ data, n.engine.delivered io = some data →
          OutcomeSupplied (n.engine.afterPoll io).tree (n.engine.afterPoll io).downloader (n.remembered event) data) ∧
        ∀ message, n.engine.handles io = some message →
          MessageKeeps (n.engine.afterPoll io).tree (n.engine.afterPoll io).downloader io.sched message) :
    EventSupplies n event := by
  refine ⟨fun k b _ _ hk => absurd ?_ hk, hclear⟩
  have hnone : k ∉ (smallCache.entries n.engine.tree.invalidHeaders).keys := by rw [hkeys]; exact Finset.notMem_empty k
  exact FMap.get_of_notMem_keys hnone

/-- a payload whose parent is unknown is buffered, and its witness arrives -/
def waitingRun : List (NodeEvent smallEnv) :=
  [.arrive (.newPayload (mainBlock 2, none) 1), idle false, witnessReady 2]

theorem runs_supplied_waiting :
    Run.Always step (fun n => n.terminated = none → AllSupplied n.engine.tree n.engine.downloader)
      (launch smallEnv ⟨∅, none, none⟩ twoBranches.genesis) waitingRun := by
  have hpayload : (smallNode [.arrive (.newPayload (mainBlock 2, none) 1)]).engine.handles
      ⟨Network.silent, false, StateRoot.sortedSchedule, none, none⟩ = some (.newPayload (mainBlock 2, none) 1) := rfl
  have hidle : (smallNode [.arrive (.newPayload (mainBlock 2, none) 1)]).engine.delivered
      ⟨Network.silent, false, StateRoot.sortedSchedule, none, none⟩ = none := by decide +kernel
  have hnone : ((smallNode [.arrive (.newPayload (mainBlock 2, none) 1)]).engine.tree.blockBuffer.removeWitness
      (mainBlock 2).hash).1 = none := by decide +kernel
  have hwitness : ∀ io, witnessReady 2 = .poll io →
      (smallNode [.arrive (.newPayload (mainBlock 2, none) 1), idle false]).engine.delivered io =
        some (.witness (mainBlock 2).hash smallWitness) := by
    rintro io ⟨rfl⟩
    decide +kernel
  apply runs_supplied twoBranches smallCache_marks
  · refine ⟨?_, ?_, ?_, trivial⟩
    · rintro b ⟨rfl⟩
      exact mainBlock_knows (by decide)
    · intro data hdata
      cases hidle.symm.trans hdata
    · intro data hdata
      cases (hwitness _ rfl).symm.trans hdata
      trivial
  · intro io hio
    simp only [waitingRun, idle, witnessReady, List.mem_cons, reduceCtorEq, false_or, NodeEvent.poll.injEq,
      List.not_mem_nil, or_false] at hio
    rcases hio with rfl | rfl <;> rfl
  · refine ⟨supplies_unmarked (by decide +kernel) ?_, supplies_unmarked (by decide +kernel) ?_,
      supplies_unmarked (by decide +kernel) ?_, trivial⟩
    · intro io hio
      cases hio
    · rintro io ⟨rfl⟩
      refine ⟨fun data hdata => ?_, fun message hmessage => ?_⟩
      · cases hidle.symm.trans hdata
      · cases hpayload.symm.trans hmessage
        intro w hw
        cases hnone.symm.trans hw
    · intro io hio
      have hdata := hwitness io hio
      refine ⟨fun data h => ?_, fun message h => ?_⟩
      · cases hdata.symm.trans h
        trivial
      · cases hdata.symm.trans (ConsensusEngine.handles_delivered h)

/-- then a payload with the same block hash arrives, which is not well formed -/
def malformedRun : List (NodeEvent smallEnv) :=
  waitingRun ++ [.arrive (.newPayload (mainBlock 2, some ⟨true, false, "block hash mismatch"⟩) 2), idle false]

/-- **A malformed payload takes a witness for good.** It is answered INVALID; the buffered block of that hash has lost its
witness, and none is requested. -/
theorem malformed_takes_witness :
    (smallNode malformedRun).terminated = none ∧ (smallNode malformedRun).engine.responses.length = 2 ∧
      ¬ AllSupplied (smallNode malformedRun).engine.tree (smallNode malformedRun).engine.downloader := by
  refine ⟨by decide +kernel, by decide +kernel, ?_⟩
  intro h
  have hbuffered : (smallNode malformedRun).engine.tree.blockBuffer.blocks.get (mainBlock 2).hash =
      some (mainBlock 2) := by decide +kernel
  have hnew : (smallNode malformedRun).engine.tree.provider.chainState.blocksByHash.get (mainBlock 2).hash = none := by
    decide +kernel
  have hvalid : (smallNode malformedRun).engine.tree.invalidHeader (mainBlock 2).hash = none := by decide +kernel
  have hwitness : (smallNode malformedRun).engine.tree.blockBuffer.witnesses.get (mainBlock 2).hash = none := by
    decide +kernel
  have hinflight : (mainBlock 2).hash ∉ (smallNode malformedRun).engine.downloader.inflightWitnessRequests := by
    decide +kernel
  have houtcomes : (smallNode malformedRun).engine.downloader.outcomes = [] := by decide +kernel
  have hunstored : ¬ EngineTree.Stored (smallNode malformedRun).engine.tree (mainBlock 2).hash := by
    rintro ⟨b, hb⟩
    cases hnew.symm.trans hb
  rcases h _ _ hbuffered hunstored hvalid with ⟨⟨w, hw⟩, -⟩ | hk | ⟨w, hw⟩
  · cases hwitness.symm.trans hw
  · exact hinflight hk
  · rw [houtcomes] at hw
    cases hw

end Node

/-! ## Payloads that are not well formed -/

namespace ConsensusEngine

open BlockBuffer (SameAt)
open Chain (mainBlock)
open Node (smallNode waitingRun idle)

variable {E : Env}

/-- the payload is refused, but its witness was taken before -/
theorem onEngineMessage_malformed (e : ConsensusEngine E) (sched : StateRoot.Schedule)
    {payload : E.validator.ExecutionData} (tx : ℕ) {error : PayloadError}
    (herror : E.validator.ensureWellFormedPayload payload = .error error) :
    (e.onEngineMessage sched (.newPayload payload tx)).tree.blockBuffer =
      (e.tree.blockBuffer.removeWitness (E.validator.blockHash payload)).2 := by
  have hframe := follows_frame (onEngineMessage_payload e sched payload tx)
  rcases EngineTree.onNewPayload_cases (e.tree.witnessTaken payload) sched payload (e.tree.takenWitness payload) with
    ⟨_, _, -, -, -, hf⟩ | ⟨b, hb, -⟩
  · exact hframe.1.trans hf.blockBuffer
  · cases herror.symm.trans hb

/-- **A payload that is not well formed** leaves blocks, witnesses and missing bytecodes as they were, exactly if no
witness with all its bytecodes is stored under the hash that it claims. -/
theorem malformed_keeps_buffer_iff (e : ConsensusEngine E) (sched : StateRoot.Schedule)
    {payload : E.validator.ExecutionData} (tx : ℕ) {error : PayloadError}
    (herror : E.validator.ensureWellFormedPayload payload = .error error) :
    (∀ k, SameAt k e.tree.blockBuffer (e.onEngineMessage sched (.newPayload payload tx)).tree.blockBuffer) ↔
      ¬ e.tree.blockBuffer.Ready (E.validator.blockHash payload) := by
  rw [onEngineMessage_malformed e sched tx herror]
  exact e.tree.blockBuffer.removeWitness_same_iff (E.validator.blockHash payload)

/-- a payload that claims the hash of block 2 and is not well formed -/
def forgedPayload : smallEnv.validator.ExecutionData := (mainBlock 2, some ⟨true, false, "block hash mismatch"⟩)

theorem forgedPayload_malformed :
    smallEnv.validator.ensureWellFormedPayload forgedPayload = .error ⟨true, false, "block hash mismatch"⟩ := rfl

/-- block 2 is buffered and its witness has not arrived -/
theorem malformed_keeps_buffer_iff_waiting :
    ¬ (smallNode [.arrive (.newPayload (mainBlock 2, none) 1), idle false]).engine.tree.blockBuffer.Ready
        (mainBlock 2).hash ∧
      ∀ k, SameAt k (smallNode [.arrive (.newPayload (mainBlock 2, none) 1), idle false]).engine.tree.blockBuffer
        ((smallNode [.arrive (.newPayload (mainBlock 2, none) 1), idle false]).engine.onEngineMessage
          StateRoot.sortedSchedule (.newPayload forgedPayload 2)).tree.blockBuffer := by
  have hwaits : ¬ (smallNode [.arrive (.newPayload (mainBlock 2, none) 1), idle false]).engine.tree.blockBuffer.Ready
      (mainBlock 2).hash := by
    rintro ⟨⟨w, hw⟩, -⟩
    have hnone : (smallNode [.arrive (.newPayload (mainBlock 2, none) 1),
        idle false]).engine.tree.blockBuffer.witnesses.get (mainBlock 2).hash = none := by decide +kernel
    cases hnone.symm.trans hw
  exact ⟨hwaits, (malformed_keeps_buffer_iff _ StateRoot.sortedSchedule 2 forgedPayload_malformed).2 hwaits⟩

/-- the witness of block 2 has arrived, and the payload takes it -/
theorem malformed_changes_buffer :
    ¬ ∀ k, SameAt k (smallNode waitingRun).engine.tree.blockBuffer
      ((smallNode waitingRun).engine.onEngineMessage StateRoot.sortedSchedule
        (.newPayload forgedPayload 2)).tree.blockBuffer := by
  intro hsame
  have hbefore : (smallNode waitingRun).engine.tree.blockBuffer.witnesses.get (mainBlock 2).hash =
      some smallWitness := by decide +kernel
  have hafter : ((smallNode waitingRun).engine.onEngineMessage StateRoot.sortedSchedule
      (.newPayload forgedPayload 2)).tree.blockBuffer.witnesses.get (mainBlock 2).hash = none := by decide +kernel
  cases (hafter.symm.trans (hsame (mainBlock 2).hash).witness).trans hbefore

end ConsensusEngine

end Ress
