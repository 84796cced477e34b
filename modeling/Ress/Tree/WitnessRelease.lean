/-
When the witness of a block is released: `insert_witness` stores it with the bytecodes that miss, and it can be taken
once all of them have arrived.

The missing bytecodes are stored in a map of their own, and `insert_witness` writes to it only where some miss. A witness
that misses none leaves the bytecodes of an earlier witness of the block in place, and waits for them:
`released_iff` says that a witness is released when it should be, whatever happens to the rest of the buffer, exactly if
it misses some bytecode or no entry of an earlier one was there. `stale_codes` is the failing case.

`Waits` is what holds in between: the witness, what misses of its bytecodes, and no empty entry.
-/
import Ress.Tree.BufferFrame
import Ress.Tree.BufferLinks

namespace Ress

namespace BlockBuffer

variable {β : BlockBuffer} {h : B256} {w : ExecutionWitness} {m rest : Finset B256}

/-- the bytecodes that have arrived -/
def received (ops : List BufferOp) : List B256 :=
  ops.filterMap fun
    | .onBytecodeReceived codeHash => some codeHash
    | _ => none

/-- the bytecodes of a set that have not arrived -/
def outstanding (missingBytecodes : Finset B256) (ops : List BufferOp) : Finset B256 :=
  missingBytecodes \ (received ops).toFinset

/-- the operation does not insert a witness of the block, and the one that is stored stays -/
def Spares (h : B256) (β : BlockBuffer) (op : BufferOp) : Prop :=
  (∀ w m, op ≠ .insertWitness h w m) ∧ (β.apply op).witnesses.get h = β.witnesses.get h

/-- once inserted, the witness can be taken exactly if its bytecodes have arrived, and its block is reported exactly by
the call that completes them -/
def ReleasedOnArrival (β : BlockBuffer) (h : B256) (w : ExecutionWitness) (m : Finset B256) : Prop :=
  ∀ ops, Run.AllSteps apply (Spares h) (β.insertWitness h w m) ops →
    (((Run.run apply (β.insertWitness h w m) ops).removeWitness h).1 = some w ↔ outstanding m ops = ∅) ∧
      ∀ c, h ∈ ((Run.run apply (β.insertWitness h w m) ops).onBytecodeReceived c).1 ↔
        outstanding m ops ≠ ∅ ∧ outstanding m (ops ++ [.onBytecodeReceived c]) = ∅

/-- the witness is stored, and these bytecodes miss -/
structure Waits (h : B256) (w : ExecutionWitness) (rest : Finset B256) (β : BlockBuffer) : Prop where
  witness : β.witnesses.get h = some w
  missing : β.missing h = rest
  entry : β.missingBytecodes.get h ≠ some ∅

/-! ## Bytecodes that have arrived -/

theorem received_concat (ops : List BufferOp) (op : BufferOp) : received (ops ++ [op]) = received ops ++ received [op] :=
  List.filterMap_append

theorem outstanding_nil (m : Finset B256) : outstanding m [] = m := by
  simp [outstanding, received]

theorem outstanding_other (m : Finset B256) (ops : List BufferOp) {op : BufferOp}
    (hop : ∀ c, op ≠ .onBytecodeReceived c) : outstanding m (ops ++ [op]) = outstanding m ops := by
  have hnone : received [op] = [] := by
    cases op with
    | onBytecodeReceived c => exact absurd rfl (hop c)
    | _ => rfl
  simp only [outstanding]
  rw [received_concat, hnone, List.append_nil]

theorem outstanding_received (m : Finset B256) (ops : List BufferOp) (c : B256) :
    outstanding m (ops ++ [.onBytecodeReceived c]) = (outstanding m ops).erase c := by
  have hone : received [.onBytecodeReceived c] = [c] := rfl
  ext k
  simp only [outstanding]
  rw [received_concat, hone, Finset.mem_sdiff, Finset.mem_erase, Finset.mem_sdiff, List.mem_toFinset,
    List.mem_toFinset, List.mem_append, List.mem_singleton, not_or]
  tauto

/-! ## One operation -/

theorem removeBlock_entry (hash : B256) (hentry : β.missingBytecodes.get h ≠ some ∅) :
    (β.removeBlock hash).2.missingBytecodes.get h ≠ some ∅ := by
  have hdel : (β.missingBytecodes.del hash).get h ≠ some ∅ := fun hd => hentry (FMap.get_del_some hd).2
  simp only [removeBlock, removeWitness]
  cases β.blocks.get hash with
  | none => exact hentry
  | some b =>
    simp only
    split_ifs
    · cases β.witnesses.get hash with
      | none => exact hdel
      | some w => exact hdel
    · exact hentry

theorem evictBlock_entry (hash : B256) (hentry : β.missingBytecodes.get h ≠ some ∅) :
    (β.evictBlock hash).2.missingBytecodes.get h ≠ some ∅ := by
  simp only [evictBlock]
  cases β.blocks.get hash with
  | none => exact hentry
  | some b => exact fun hd => hentry (FMap.get_del_some hd).2

theorem insertBlock_entry (b : Block) (hentry : β.missingBytecodes.get h ≠ some ∅) :
    (β.insertBlock b).missingBytecodes.get h ≠ some ∅ := by
  simp only [insertBlock, insertHashAndGetEvicted]
  split_ifs
  · cases (β.addBlock b).lru.order.getLast? with
    | none => exact hentry
    | some oldest =>
      simp only
      generalize hβ₁ : ({ β.addBlock b with
        lru := { (β.addBlock b).lru with
          order := b.hash :: (β.addBlock b).lru.order.dropLast.erase b.hash } } : BlockBuffer) = β₁
      have hevicted := evictBlock_entry (β := β₁) (h := h) oldest (by rw [← hβ₁]; exact hentry)
      cases he : β₁.evictBlock oldest with
      | mk evicted β₂ =>
        rw [he] at hevicted
        cases evicted with
        | none => exact hevicted
        | some e => exact hevicted
  · exact hentry

/-- no operation stores an empty set of missing bytecodes -/
theorem apply_entry (op : BufferOp) (hentry : β.missingBytecodes.get h ≠ some ∅) :
    (β.apply op).missingBytecodes.get h ≠ some ∅ := by
  cases op with
  | insertBlock b => exact insertBlock_entry b hentry
  | insertWitness hash w m =>
    simp only [apply, insertWitness]
    split_ifs with hm
    · rw [FMap.get_set]
      split_ifs
      · exact fun he => hm (Option.some.inj he)
      · exact hentry
    · exact hentry
  | removeBlock hash => exact removeBlock_entry hash hentry
  | removeWitness hash =>
    simp only [apply, removeWitness]
    split_ifs
    · exact fun hd => hentry (FMap.get_del_some hd).2
    · exact hentry
  | removeBlockWithChildren ord p =>
    exact removeBlockWithChildren_keeps (P := fun β => β.missingBytecodes.get h ≠ some ∅)
      (fun _ hash he => removeBlock_entry hash he) (fun _ _ he => he) ord p hentry
  | evictOldBlocks ord n =>
    exact evictOldBlocks_keeps (P := fun β => β.missingBytecodes.get h ≠ some ∅)
      (fun _ hash he => evictBlock_entry hash he) (fun _ _ he => he) (fun _ _ he => he) ord n hentry
  | onBytecodeReceived c =>
    simp only [apply, onBytecodeReceived]
    rw [FMap.get_retain]
    cases β.missingBytecodes.get h with
    | none => simp
    | some s =>
      simp only [Option.bind_some]
      split_ifs with he
      · simp
      · exact fun hc => he (Option.some.inj hc)

/-- where a hash keeps or loses everything and the witness stays, nothing else changes for the hash -/
theorem Waits.frees {β' : BlockBuffer} (hw : Waits h w rest β) (hf : Frees β β')
    (hkept : β'.witnesses.get h = β.witnesses.get h) : β'.missing h = rest := by
  have hsame := hf.same_of_witness (hkept.trans hw.witness)
  exact hsame.missing.trans hw.missing

/-- **One operation** that spares the witness leaves what misses of it, or takes the bytecode that has arrived out. -/
theorem Waits.apply (hw : Waits h w rest β) (op : BufferOp) (hs : Spares h β op) :
    Waits h w (match op with | .onBytecodeReceived c => rest.erase c | _ => rest) (β.apply op) := by
  obtain ⟨hnew, hkept⟩ := hs
  refine ⟨hkept.trans hw.witness, ?_, apply_entry op hw.entry⟩
  cases op with
  | insertBlock b =>
    have hsame := (insertBlock_frees β b).1.same_of_witness (hkept.trans hw.witness)
    exact hsame.missing.trans hw.missing
  | insertWitness hash w' m' =>
    have hne : h ≠ hash := by
      rintro rfl
      exact hnew w' m' rfl
    simp only [BlockBuffer.apply]
    rw [missing_insertWitness, if_neg fun hc => hne hc.2, hw.missing]
  | removeBlock hash => exact hw.frees (removeBlock_frees β hash) hkept
  | removeWitness hash =>
    have hframe := removeWitness_frame β hash h
    by_cases hne : h = hash
    · subst hne
      cases htaken : (β.removeWitness h).1 with
      | none => exact (hframe (Or.inr htaken)).2.trans hw.missing
      | some w' =>
        -- a witness that is taken does not stay
        have hgone := (removeWitness_taken htaken).1
        cases hgone.symm.trans (hkept.trans hw.witness)
    · exact (hframe (Or.inl hne)).2.trans hw.missing
  | removeBlockWithChildren ord p => exact hw.frees (removeBlockWithChildren_frees ord β p) hkept
  | evictOldBlocks ord n => exact hw.frees (evictOldBlocks_frees ord β n) hkept
  | onBytecodeReceived c =>
    simp only [BlockBuffer.apply]
    rw [missing_onBytecodeReceived, hw.missing]

/-! ## Every sequence of operations -/

/-- **A run** that spares the witness: the bytecodes that have not arrived miss. -/
theorem Waits.run (hw : Waits h w m β) (ops : List BufferOp) (hs : Run.AllSteps BlockBuffer.apply (Spares h) β ops) :
    Waits h w (outstanding m ops) (Run.run BlockBuffer.apply β ops) := by
  induction ops using List.reverseRecOn with
  | nil =>
    rw [outstanding_nil]
    exact hw
  | append_singleton ops op ih =>
    rw [Run.allSteps_append] at hs
    have hstep := (ih hs.1).apply op hs.2.1
    rw [Run.run_append]
    cases op with
    | onBytecodeReceived c =>
      rw [outstanding_received]
      exact hstep
    | _ =>
      rw [outstanding_other m ops (by intro c hc; cases hc)]
      exact hstep

theorem Waits.taken_iff (hw : Waits h w rest β) : (β.removeWitness h).1 = some w ↔ rest = ∅ := by
  constructor
  · intro htaken
    rw [← hw.missing]
    exact (removeWitness_some htaken).2
  · intro hempty
    simp only [removeWitness]
    rw [if_pos (hw.missing.trans hempty)]
    exact hw.witness

theorem Waits.reported_iff (hw : Waits h w rest β) (c : B256) :
    h ∈ (β.onBytecodeReceived c).1 ↔ rest ≠ ∅ ∧ rest.erase c = ∅ := by
  have hkey : h ∈ β.missingBytecodes.keys ↔ rest ≠ ∅ := by
    rw [FMap.mem_keys, ← hw.missing]
    simp only [BlockBuffer.missing]
    cases hget : β.missingBytecodes.get h with
    | none => simp
    | some s =>
      have hne := hw.entry
      rw [hget] at hne
      simpa using hne
  simp only [onBytecodeReceived, Finset.mem_filter]
  rw [hkey, hw.missing]

/-- a witness that misses some bytecode, or has no entry of an earlier one, waits for its own bytecodes -/
theorem insertWitness_waits (w : ExecutionWitness) (hm : m ≠ ∅ ∨ β.missingBytecodes.get h = none) :
    Waits h w m (β.insertWitness h w m) := by
  refine ⟨by simp [insertWitness], ?_, ?_⟩
  · rw [missing_insertWitness]
    by_cases hne : m ≠ ∅
    · rw [if_pos ⟨hne, rfl⟩]
    · rw [if_neg fun hc => hne hc.1, not_not.1 hne]
      simp only [missing, hm.resolve_left hne, Option.getD_none]
  · simp only [insertWitness]
    split_ifs with hne
    · rw [FMap.get_set_self]
      exact fun he => hne (Option.some.inj he)
    · rw [hm.resolve_left hne]
      simp

/-- **A witness is released when its bytecodes have arrived**, exactly if it misses some bytecode or no entry of an
earlier witness of the block is there. -/
theorem released_iff (β : BlockBuffer) (h : B256) (w : ExecutionWitness) (m : Finset B256) :
    ReleasedOnArrival β h w m ↔ m ≠ ∅ ∨ β.missingBytecodes.get h = none := by
  constructor
  · intro hreleased
    by_contra hstale
    rw [not_or, not_not] at hstale
    obtain ⟨rfl, hentry⟩ := hstale
    obtain ⟨s, hs⟩ := Option.ne_none_iff_exists'.1 hentry
    -- the entry of the earlier witness is still there
    have hget : (β.insertWitness h w ∅).missingBytecodes.get h = some s := by simpa [insertWitness] using hs
    obtain ⟨htaken, hreported⟩ := hreleased [] trivial
    by_cases hempty : s = ∅
    · have hmem : h ∈ ((β.insertWitness h w ∅).onBytecodeReceived 0).1 := by
        simp only [onBytecodeReceived, Finset.mem_filter]
        exact ⟨FMap.mem_keys_of_get hget, by simp [missing, hget, hempty]⟩
      exact ((hreported 0).1 hmem).1 (outstanding_nil ∅)
    · have hsome := htaken.2 (outstanding_nil ∅)
      have hnone := (removeWitness_some hsome).2
      simp only [missing, Run.run_nil] at hnone
      rw [hget] at hnone
      exact hempty hnone
  · intro hm ops hs
    have hwaits := (insertWitness_waits w hm).run ops hs
    refine ⟨hwaits.taken_iff, fun c => ?_⟩
    rw [hwaits.reported_iff c, outstanding_received]

/-- a second witness that misses nothing waits for a bytecode of the first -/
theorem stale_codes :
    ¬ReleasedOnArrival (runOps 256 [.insertBlock (pending 1), .insertWitness 2 ⟨[[7]], 0⟩ {7}]) 2 ⟨[], 0⟩ ∅ := by
  intro hreleased
  have htaken := (hreleased [] trivial).1.2 (outstanding_nil ∅)
  revert htaken
  decide +kernel

end BlockBuffer

end Ress
