/-
Requests in flight, and what a poll makes of them.

A request is in flight until its outcome is there, and the outcome is there until it is handed out: a poll loses none of
them (`poll_block`, `poll_witness`, `poll_bytecode`). Only the engine adds requests (`Grows`).
-/
import Ress.Download.EngineDownloader

namespace Ress

/-- a block request is answered with the block of that hash -/
def Network.Honest (net : Network) : Prop := ∀ hash block, net.fullBlock hash = some block → block.hash = hash

namespace EngineDownloader

variable {d d' d'' : EngineDownloader} {net : Network}

/-! ## What is under way -/

/-- the block is requested, or it has arrived and waits to be handed out -/
def AwaitsBlock (d : EngineDownloader) (blockHash : B256) : Prop :=
  blockHash ∈ d.inflightFullBlockRequests ∨ ∃ block, .fullBlock block ∈ d.outcomes ∧ block.hash = blockHash

/-- the hashes of the blocks that are awaited -/
def awaitedBlocks (d : EngineDownloader) : List B256 :=
  d.inflightFullBlockRequests ++ d.outcomes.filterMap fun
    | .fullBlock block => some block.hash
    | _ => none

def AwaitsWitness (d : EngineDownloader) (blockHash : B256) : Prop :=
  blockHash ∈ d.inflightWitnessRequests ∨ ∃ witness, .witness blockHash witness ∈ d.outcomes

def AwaitsBytecode (d : EngineDownloader) (codeHash : B256) : Prop :=
  codeHash ∈ d.inflightBytecodeRequests ∨ ∃ bytecode, .bytecode codeHash bytecode ∈ d.outcomes

theorem AwaitsBlock.mem {k : B256} (h : d.AwaitsBlock k) : k ∈ d.awaitedBlocks := by
  rcases h with hk | ⟨block, hmem, rfl⟩
  · exact List.mem_append_left _ hk
  · exact List.mem_append_right _ (List.mem_filterMap.2 ⟨.fullBlock block, hmem, rfl⟩)

/-- requests are added, and nothing else changes -/
structure Grows (d d' : EngineDownloader) : Prop where
  blocks : d.inflightFullBlockRequests ⊆ d'.inflightFullBlockRequests
  bytecodes : d.inflightBytecodeRequests ⊆ d'.inflightBytecodeRequests
  witnesses : d.inflightWitnessRequests ⊆ d'.inflightWitnessRequests
  outcomes : d'.outcomes = d.outcomes

theorem Grows.rfl' (d : EngineDownloader) : Grows d d := ⟨fun _ h => h, fun _ h => h, fun _ h => h, rfl⟩

theorem Grows.trans (h : Grows d d') (h' : Grows d' d'') : Grows d d'' :=
  ⟨fun _ hk => h'.blocks (h.blocks hk), fun _ hk => h'.bytecodes (h.bytecodes hk),
    fun _ hk => h'.witnesses (h.witnesses hk), h'.outcomes.trans h.outcomes⟩

theorem Grows.awaitsBlock (h : Grows d d') {k : B256} (hk : d.AwaitsBlock k) : d'.AwaitsBlock k := by
  rcases hk with hk | hk
  · exact Or.inl (h.blocks hk)
  · exact Or.inr (h.outcomes ▸ hk)

theorem Grows.awaitsWitness (h : Grows d d') {k : B256} (hk : d.AwaitsWitness k) : d'.AwaitsWitness k := by
  rcases hk with hk | hk
  · exact Or.inl (h.witnesses hk)
  · exact Or.inr (h.outcomes ▸ hk)

theorem Grows.awaitsBytecode (h : Grows d d') {k : B256} (hk : d.AwaitsBytecode k) : d'.AwaitsBytecode k := by
  rcases hk with hk | hk
  · exact Or.inl (h.bytecodes hk)
  · exact Or.inr (h.outcomes ▸ hk)

/-! ## Requests -/

theorem mem_request (inflight : List B256) (hash : B256) :
    hash ∈ request inflight hash ∧ inflight ⊆ request inflight hash := by
  simp only [request]
  split_ifs with hany
  · obtain ⟨k, hk, heq⟩ := List.any_eq_true.1 hany
    exact ⟨of_decide_eq_true heq ▸ hk, fun _ h => h⟩
  · exact ⟨by simp, List.subset_append_left _ _⟩

theorem downloadFullBlock_grows (d : EngineDownloader) (hash : B256) : Grows d (d.downloadFullBlock hash) :=
  ⟨(mem_request _ _).2, fun _ h => h, fun _ h => h, rfl⟩

theorem downloadBytecode_grows (d : EngineDownloader) (hash : B256) : Grows d (d.downloadBytecode hash) :=
  ⟨fun _ h => h, (mem_request _ _).2, fun _ h => h, rfl⟩

theorem downloadWitness_grows (d : EngineDownloader) (hash : B256) : Grows d (d.downloadWitness hash) :=
  ⟨fun _ h => h, fun _ h => h, (mem_request _ _).2, rfl⟩

theorem downloadFinalized_grows (d : EngineDownloader) (hash : B256) :
    Grows d (d.downloadFinalizedWithAncestors hash) := ⟨fun _ h => h, fun _ h => h, fun _ h => h, rfl⟩

theorem downloadWitness_awaits (d : EngineDownloader) (hash : B256) : (d.downloadWitness hash).AwaitsWitness hash :=
  Or.inl (mem_request _ _).1

/-- requesting a list of bytecodes -/
theorem downloadBytecodes_awaits (codeHashes : List B256) (d : EngineDownloader) :
    Grows d (codeHashes.foldl (fun d hash => d.downloadBytecode hash) d) ∧
      ∀ c ∈ codeHashes, (codeHashes.foldl (fun d hash => d.downloadBytecode hash) d).AwaitsBytecode c := by
  induction codeHashes generalizing d with
  | nil => exact ⟨Grows.rfl' d, by simp⟩
  | cons codeHash codeHashes ih =>
    obtain ⟨hgrows, hawaits⟩ := ih (d.downloadBytecode codeHash)
    refine ⟨(downloadBytecode_grows d codeHash).trans hgrows, ?_⟩
    intro c hc
    rcases List.mem_cons.1 hc with rfl | hc
    · exact hgrows.awaitsBytecode (Or.inl (mem_request _ _).1)
    · exact hawaits c hc

/-! ## Polling -/

theorem mem_set_or {l : List B256} {idx : ℕ} (hidx : idx < l.length) (x : B256) {k : B256} (hk : k ∈ l) :
    k = l[idx] ∨ k ∈ l.set idx x := by
  obtain ⟨j, hj, rfl⟩ := List.mem_iff_getElem.1 hk
  by_cases hji : j = idx
  · subst hji
    exact Or.inl rfl
  · refine Or.inr (List.mem_iff_getElem.2 ⟨j, by rwa [List.length_set], ?_⟩)
    exact List.getElem_set_ne (Ne.symm hji) _

/-- the request at the index goes, and the others stay, the last one in its place -/
theorem swapRemove_mem {requests rest : List B256} {idx : ℕ} {request : B256}
    (h : swapRemove requests idx = some (request, rest)) {k : B256} (hk : k ∈ requests) : k = request ∨ k ∈ rest := by
  simp only [swapRemove] at h
  cases hr : requests[idx]? with
  | none => simp [hr] at h
  | some r =>
    cases hl : requests.getLast? with
    | none => simp [hr, hl] at h
    | some last =>
      simp only [hr, hl, Option.some.injEq, Prod.mk.injEq] at h
      obtain ⟨rfl, rfl⟩ := h
      obtain ⟨hidx, hget⟩ := List.getElem?_eq_some_iff.1 hr
      obtain ⟨init, rfl⟩ : ∃ init, requests = init ++ [last] :=
        ⟨requests.dropLast, (List.dropLast_append_getLast? last hl).symm⟩
      rw [List.length_append, List.length_singleton] at hidx
      by_cases hlast : idx = init.length
      · -- the last request is the one that goes
        subst hlast
        rw [List.set_append_right _ _ le_rfl, Nat.sub_self]
        rw [List.getElem_append_right le_rfl] at hget
        simp only [Nat.sub_self, List.getElem_cons_zero] at hget
        rcases List.mem_append.1 hk with hk | hk
        · exact Or.inr (by simpa using hk)
        · exact Or.inl ((List.mem_singleton.1 hk).trans hget)
      · have hlt : idx < init.length := by omega
        rw [List.set_append_left _ _ hlt, List.dropLast_concat]
        rw [List.getElem_append_left hlt] at hget
        rcases List.mem_append.1 hk with hk | hk
        · exact hget ▸ mem_set_or hlt last hk
        · rw [List.mem_singleton.1 hk]
          exact Or.inr (List.mem_set hlt last)

/-- polling the requests of one kind: each stays, or its outcome is there -/
theorem advance_keeps (ready : B256 → Option DownloadData) (idx : ℕ) (requests : List B256)
    (outcomes : List DownloadData) :
    (∀ k ∈ requests, k ∈ (advance ready idx requests outcomes).1 ∨
        ∃ data, ready k = some data ∧ data ∈ (advance ready idx requests outcomes).2) ∧
      outcomes ⊆ (advance ready idx requests outcomes).2 := by
  induction idx generalizing requests outcomes with
  | zero => exact ⟨fun k hk => Or.inl hk, fun _ h => h⟩
  | succ idx ih =>
    simp only [advance]
    cases hs : swapRemove requests idx with
    | none => exact ⟨fun k hk => Or.inl hk, fun _ h => h⟩
    | some x =>
      obtain ⟨request, rest⟩ := x
      simp only
      cases hr : ready request with
      | some data =>
        obtain ⟨hkeeps, hsub⟩ := ih rest (outcomes ++ [data])
        refine ⟨fun k hk => ?_, fun x hx => hsub (List.mem_append_left _ hx)⟩
        rcases swapRemove_mem hs hk with rfl | hk
        · exact Or.inr ⟨data, hr, hsub (by simp)⟩
        · exact hkeeps k hk
      | none =>
        obtain ⟨hkeeps, hsub⟩ := ih (rest ++ [request]) outcomes
        refine ⟨fun k hk => hkeeps k ?_, hsub⟩
        rcases swapRemove_mem hs hk with rfl | hk
        · simp
        · exact List.mem_append_left _ hk

/-- **All requests are polled**: each stays in flight, or its outcome is there. -/
theorem advanceRequests_keeps (net : Network) (d : EngineDownloader) :
    (∀ k ∈ d.inflightFullBlockRequests, k ∈ (d.advanceRequests net).inflightFullBlockRequests ∨
        ∃ block, net.fullBlock k = some block ∧ .fullBlock block ∈ (d.advanceRequests net).outcomes) ∧
      (∀ k ∈ d.inflightWitnessRequests, (d.advanceRequests net).AwaitsWitness k) ∧
      (∀ k ∈ d.inflightBytecodeRequests, (d.advanceRequests net).AwaitsBytecode k) ∧
      d.outcomes ⊆ (d.advanceRequests net).outcomes := by
  have hfinalized := advance_keeps (fun hash => (net.finalizedBlock hash).map fun x => .finalizedBlock x.1 x.2)
    d.inflightFinalizedBlockRequests.length d.inflightFinalizedBlockRequests d.outcomes
  have hfull := advance_keeps (fun hash => (net.fullBlock hash).map .fullBlock) d.inflightFullBlockRequests.length
    d.inflightFullBlockRequests
  have hwitness := advance_keeps (fun hash => (net.witness hash).map (.witness hash)) d.inflightWitnessRequests.length
    d.inflightWitnessRequests
  have hbytecode := advance_keeps (fun hash => (net.bytecode hash).map (.bytecode hash))
    d.inflightBytecodeRequests.length d.inflightBytecodeRequests
  simp only [advanceRequests, advanceAll, AwaitsWitness, AwaitsBytecode]
  refine ⟨fun k hk => ?_, fun k hk => ?_, fun k hk => ?_, fun data hdata => ?_⟩
  · rcases (hfull _).1 k hk with hk | ⟨data, hready, hmem⟩
    · exact Or.inl hk
    · obtain ⟨block, hblock, rfl⟩ := Option.map_eq_some_iff.1 hready
      exact Or.inr ⟨block, hblock, (hbytecode _).2 ((hwitness _).2 hmem)⟩
  · rcases (hwitness _).1 k hk with hk | ⟨data, hready, hmem⟩
    · exact Or.inl hk
    · obtain ⟨witness, -, rfl⟩ := Option.map_eq_some_iff.1 hready
      exact Or.inr ⟨witness, (hbytecode _).2 hmem⟩
  · rcases (hbytecode _).1 k hk with hk | ⟨data, hready, hmem⟩
    · exact Or.inl hk
    · obtain ⟨bytecode, -, rfl⟩ := Option.map_eq_some_iff.1 hready
      exact Or.inr ⟨bytecode, hmem⟩
  · exact (hbytecode _).2 ((hwitness _).2 ((hfull _).2 (hfinalized.2 hdata)))

/-- what a poll hands out was the first of the outcomes, before the requests were polled or after -/
theorem poll_cases (net : Network) (d : EngineDownloader) :
    ∃ d₁, (d₁ = d ∨ d₁ = d.advanceRequests net) ∧ (d.poll net).2 = { d₁ with outcomes := (d.poll net).2.outcomes } ∧
      d₁.outcomes = (d.poll net).1.toList ++ (d.poll net).2.outcomes := by
  have hpop : ∀ d₁ : EngineDownloader, (∃ outcome outcomes, d₁.outcomes = outcome :: outcomes ∧
      d₁.popOutcome = some (outcome, { d₁ with outcomes := outcomes })) ∨ (d₁.outcomes = [] ∧ d₁.popOutcome = none) := by
    intro d₁
    simp only [popOutcome]
    cases ho : d₁.outcomes with
    | nil => exact Or.inr ⟨rfl, rfl⟩
    | cons outcome outcomes => exact Or.inl ⟨outcome, outcomes, rfl, rfl⟩
  simp only [poll]
  rcases hpop d with ⟨outcome, outcomes, ho, hp⟩ | ⟨ho, hp⟩
  · rw [hp]
    exact ⟨d, Or.inl rfl, rfl, ho⟩
  · rw [hp]
    simp only
    rcases hpop (d.advanceRequests net) with ⟨outcome, outcomes, ho, hp⟩ | ⟨ho, hp⟩
    · rw [hp]
      exact ⟨d.advanceRequests net, Or.inr rfl, rfl, ho⟩
    · rw [hp]
      exact ⟨d.advanceRequests net, Or.inr rfl, rfl, rfl⟩

theorem mem_handed {d₁ d₂ : EngineDownloader} {outcome : Option DownloadData}
    (houtcomes : d₁.outcomes = outcome.toList ++ d₂.outcomes) {data : DownloadData} (hdata : data ∈ d₁.outcomes) :
    data ∈ d₂.outcomes ∨ outcome = some data := by
  rw [houtcomes, List.mem_append, Option.mem_toList] at hdata
  exact hdata.symm

/-- **A block that is awaited** is so after a poll, unless it is the one handed out. -/
theorem poll_block (hnet : net.Honest) {k : B256} (h : d.AwaitsBlock k) :
    (d.poll net).2.AwaitsBlock k ∨ ∃ block, (d.poll net).1 = some (.fullBlock block) ∧ block.hash = k := by
  obtain ⟨d₁, hd, hsame, houtcomes⟩ := poll_cases net d
  have h₁ : d₁.AwaitsBlock k := by
    rcases hd with rfl | rfl
    · exact h
    · obtain ⟨hkeeps, -, -, hsub⟩ := advanceRequests_keeps net d
      rcases h with hk | ⟨block, hmem, hk⟩
      · rcases hkeeps k hk with hk | ⟨block, hblock, hmem⟩
        · exact Or.inl hk
        · exact Or.inr ⟨block, hmem, hnet k block hblock⟩
      · exact Or.inr ⟨block, hsub hmem, hk⟩
  rcases h₁ with hk | ⟨block, hmem, hk⟩
  · rw [hsame]
    exact Or.inl (Or.inl hk)
  · rcases mem_handed houtcomes hmem with hmem | hdata
    · exact Or.inl (Or.inr ⟨block, hmem, hk⟩)
    · exact Or.inr ⟨block, hdata, hk⟩

theorem poll_witness (net : Network) {k : B256} (h : d.AwaitsWitness k) :
    (d.poll net).2.AwaitsWitness k ∨ ∃ witness, (d.poll net).1 = some (.witness k witness) := by
  obtain ⟨d₁, hd, hsame, houtcomes⟩ := poll_cases net d
  have h₁ : d₁.AwaitsWitness k := by
    rcases hd with rfl | rfl
    · exact h
    · obtain ⟨-, hkeeps, -, hsub⟩ := advanceRequests_keeps net d
      rcases h with hk | ⟨witness, hmem⟩
      · exact hkeeps k hk
      · exact Or.inr ⟨witness, hsub hmem⟩
  rcases h₁ with hk | ⟨witness, hmem⟩
  · rw [hsame]
    exact Or.inl (Or.inl hk)
  · rcases mem_handed houtcomes hmem with hmem | hdata
    · exact Or.inl (Or.inr ⟨witness, hmem⟩)
    · exact Or.inr ⟨witness, hdata⟩

theorem poll_bytecode (net : Network) {k : B256} (h : d.AwaitsBytecode k) :
    (d.poll net).2.AwaitsBytecode k ∨ ∃ bytecode, (d.poll net).1 = some (.bytecode k bytecode) := by
  obtain ⟨d₁, hd, hsame, houtcomes⟩ := poll_cases net d
  have h₁ : d₁.AwaitsBytecode k := by
    rcases hd with rfl | rfl
    · exact h
    · obtain ⟨-, -, hkeeps, hsub⟩ := advanceRequests_keeps net d
      rcases h with hk | ⟨bytecode, hmem⟩
      · exact hkeeps k hk
      · exact Or.inr ⟨bytecode, hsub hmem⟩
  rcases h₁ with hk | ⟨bytecode, hmem⟩
  · rw [hsame]
    exact Or.inl (Or.inl hk)
  · rcases mem_handed houtcomes hmem with hmem | hdata
    · exact Or.inl (Or.inr ⟨bytecode, hmem⟩)
    · exact Or.inr ⟨bytecode, hdata⟩

end EngineDownloader

end Ress
