/-
What a downloader will hand out.

Peers answer at any time. As long as each answer is the one that `all` has for the request, the outcomes still to be
handed out are known from the requests in flight and the outcomes queued: `due`. Polling the requests does not change
them, in whatever order they become ready, and a poll hands out one of them.

- `due_advanceRequests`, `poll_due`: a pass, and a poll.
- `due_downloadFullBlock` and the like: a new request.
-/
import Ress.Download.Conservation

namespace Ress

namespace Network

/-- what is answered is what `all` has for it -/
def From (net all : Network) : Prop := ∀ ty hash data, net.ready ty hash = some data → all.ready ty hash = some data

end Network

namespace EngineDownloader

variable {net all : Network} {d : EngineDownloader}

/-- the outcomes still to be handed out, where the requests are answered with what `all` has for them -/
def due (all : Network) (d : EngineDownloader) : Multiset DownloadData :=
  d.outcomes + (d.inflight .finalized).filterMap (all.ready .finalized) +
    (d.inflight .fullBlock).filterMap (all.ready .fullBlock) + (d.inflight .witness).filterMap (all.ready .witness) +
    (d.inflight .bytecode).filterMap (all.ready .bytecode)

/-- the ready requests and the others -/
theorem filterMap_split {ready later : B256 → Option DownloadData}
    (h : ∀ hash data, ready hash = some data → later hash = some data) (requests : List B256) :
    (requests.filterMap ready : Multiset DownloadData) +
        (requests.filter fun hash => (ready hash).isNone).filterMap later = requests.filterMap later := by
  induction requests with
  | nil => rfl
  | cons hash requests ih =>
    cases hr : ready hash with
    | none =>
      rw [List.filterMap_cons_none hr, List.filter_cons_of_pos (by simp [hr])]
      cases hl : later hash with
      | none =>
        rw [List.filterMap_cons_none hl, List.filterMap_cons_none hl]
        exact ih
      | some data =>
        rw [List.filterMap_cons_some hl, List.filterMap_cons_some hl, ← Multiset.cons_coe, ← Multiset.cons_coe,
          Multiset.add_cons, ih]
    | some data =>
      rw [List.filterMap_cons_some hr, List.filterMap_cons_some (h hash data hr),
        List.filter_cons_of_neg (by simp [hr]), ← Multiset.cons_coe, ← Multiset.cons_coe, Multiset.cons_add, ih]

/-- a pass over the requests of one kind -/
theorem advanceAll_due (h : net.From all) (ty : RequestMetricTy) (requests : List B256) (outcomes : List DownloadData) :
    ((advanceAll (net.ready ty) requests outcomes).2 : Multiset DownloadData) +
        (advanceAll (net.ready ty) requests outcomes).1.filterMap (all.ready ty) =
      outcomes + requests.filterMap (all.ready ty) := by
  obtain ⟨rest, hrest, heq, -⟩ := advanceAllLogged_eq net ty requests outcomes
  have hreverse : (requests.reverse.filterMap (net.ready ty) : Multiset DownloadData) =
      requests.filterMap (net.ready ty) := Multiset.coe_eq_coe.2 (requests.reverse_perm.filterMap _)
  have hstays : (rest.filterMap (all.ready ty) : Multiset DownloadData) =
      (requests.filter fun hash => (net.ready ty hash).isNone).filterMap (all.ready ty) :=
    Multiset.coe_eq_coe.2 (hrest.filterMap _)
  rw [heq, ← Multiset.coe_add, hreverse, hstays, add_assoc, filterMap_split (h ty)]

/-- four passes over the requests of one kind each, one after another -/
theorem add_passes {o o₁ o₂ o₃ o₄ r₁ r₂ r₃ r₄ q₁ q₂ q₃ q₄ : Multiset DownloadData} (h₁ : o₁ + r₁ = o + q₁)
    (h₂ : o₂ + r₂ = o₁ + q₂) (h₃ : o₃ + r₃ = o₂ + q₃) (h₄ : o₄ + r₄ = o₃ + q₄) :
    o₄ + r₁ + r₂ + r₃ + r₄ = o + q₁ + q₂ + q₃ + q₄ :=
  calc o₄ + r₁ + r₂ + r₃ + r₄ = (o₄ + r₄) + (r₁ + r₂ + r₃) := by abel
    _ = (o₃ + r₃) + (r₁ + r₂ + q₄) := by rw [h₄]; abel
    _ = (o₂ + r₂) + (r₁ + q₃ + q₄) := by rw [h₃]; abel
    _ = (o₁ + r₁) + (q₂ + q₃ + q₄) := by rw [h₂]; abel
    _ = o + q₁ + q₂ + q₃ + q₄ := by rw [h₁]; abel

/-- **A pass** changes nothing in what is due. -/
theorem due_advanceRequests (h : net.From all) (d : EngineDownloader) : due all (d.advanceRequests net) = due all d := by
  obtain ⟨finalized, o₁, hf⟩ : ∃ x o, advanceAll (net.ready .finalized) (d.inflight .finalized) d.outcomes = (x, o) :=
    ⟨_, _, rfl⟩
  obtain ⟨full, o₂, hb⟩ : ∃ x o, advanceAll (net.ready .fullBlock) (d.inflight .fullBlock) o₁ = (x, o) := ⟨_, _, rfl⟩
  obtain ⟨witness, o₃, hw⟩ : ∃ x o, advanceAll (net.ready .witness) (d.inflight .witness) o₂ = (x, o) := ⟨_, _, rfl⟩
  obtain ⟨bytecode, o₄, hc⟩ : ∃ x o, advanceAll (net.ready .bytecode) (d.inflight .bytecode) o₃ = (x, o) := ⟨_, _, rfl⟩
  have hadvance : d.advanceRequests net = ⟨full, bytecode, witness, finalized, o₄⟩ := by
    simp only [inflight, Network.ready] at hf hb hw hc
    simp only [advanceRequests, hf, hb, hw, hc]
  have hfinalized := advanceAll_due h .finalized (d.inflight .finalized) d.outcomes
  have hfull := advanceAll_due h .fullBlock (d.inflight .fullBlock) o₁
  have hwitness := advanceAll_due h .witness (d.inflight .witness) o₂
  have hbytecode := advanceAll_due h .bytecode (d.inflight .bytecode) o₃
  rw [hf] at hfinalized
  rw [hb] at hfull
  rw [hw] at hwitness
  rw [hc] at hbytecode
  rw [hadvance]
  exact add_passes hfinalized hfull hwitness hbytecode

/-- **A poll** hands out one of the outcomes that are due, or none. -/
theorem poll_due (h : net.From all) (d : EngineDownloader) :
    due all d = (d.poll net).1.toList + due all (d.poll net).2 := by
  obtain ⟨d₁, hd, hsame, houtcomes⟩ := poll_cases net d
  have hdue : due all d = due all d₁ := by
    rcases hd with rfl | rfl
    · rfl
    · exact (due_advanceRequests h d).symm
  have hrest : due all (d.poll net).2 = due all { d₁ with outcomes := (d.poll net).2.outcomes } := congrArg _ hsame
  rw [hdue, hrest]
  simp only [due, inflight, houtcomes, ← Multiset.coe_add, add_assoc]

/-- where no outcome is handed out there is none after a pass -/
theorem poll_none (h : (d.poll net).1 = none) : (d.advanceRequests net).outcomes = [] := by
  simp only [poll, popOutcome] at h
  cases ho : d.outcomes with
  | cons outcome outcomes => simp [ho] at h
  | nil =>
    cases ha : (d.advanceRequests net).outcomes with
    | nil => rfl
    | cons outcome outcomes => simp [ho, ha] at h

/-- **Never stuck.** A poll hands out an outcome where one is due and every request is answered. -/
theorem poll_isSome (h : ∀ ty hash, net.ready ty hash = all.ready ty hash) {d : EngineDownloader}
    (hdue : due all d ≠ 0) : ((d.poll net).1).isSome = true := by
  by_contra hnone
  rw [Option.not_isSome_iff_eq_none] at hnone
  obtain ⟨log, -, hpass⟩ := advanceRequests_pass net d
  -- what stays in flight has no answer
  have hstays : ∀ ty, ((d.advanceRequests net).inflight ty).filterMap (all.ready ty) = [] := by
    intro ty
    rw [List.filterMap_eq_nil_iff]
    intro hash hmem
    have hready := (List.mem_filter.1 ((hpass.stays ty).subset hmem)).2
    rw [← h]
    exact Option.isNone_iff_eq_none.1 hready
  apply hdue
  rw [← due_advanceRequests (fun ty hash data hready => (h ty hash).symm.trans hready) d]
  simp only [due, hstays, poll_none hnone]
  rfl

/-! ## New requests -/

theorem request_of_notMem {inflight : List B256} {hash : B256} (h : hash ∉ inflight) :
    request inflight hash = inflight ++ [hash] := by
  refine if_neg fun hany => h ?_
  obtain ⟨k, hk, heq⟩ := List.any_eq_true.1 hany
  exact of_decide_eq_true heq ▸ hk

/-- the answer to a request in flight is due -/
theorem mem_due {ty : RequestMetricTy} {hash : B256} {data : DownloadData} (hmem : hash ∈ d.inflight ty)
    (hready : all.ready ty hash = some data) : data ∈ due all d := by
  have hanswer : data ∈ (d.inflight ty).filterMap (all.ready ty) := List.mem_filterMap.2 ⟨hash, hmem, hready⟩
  cases ty <;> simp only [due, Multiset.mem_add, Multiset.mem_coe] <;> tauto

theorem due_downloadFullBlock {hash : B256} {block : Block} (hnew : hash ∉ d.inflightFullBlockRequests)
    (hall : all.fullBlock hash = some block) : due all (d.downloadFullBlock hash) = .fullBlock block ::ₘ due all d := by
  have hready : all.ready .fullBlock hash = some (.fullBlock block) := by
    simp only [Network.ready, hall, Option.map_some]
  simp only [due, inflight, downloadFullBlock, request_of_notMem hnew, List.filterMap_append,
    List.filterMap_cons_some hready, List.filterMap_nil, ← Multiset.coe_add, Multiset.coe_singleton,
    ← Multiset.singleton_add]
  abel

theorem due_downloadWitness {hash : B256} {witness : ExecutionWitness} (hnew : hash ∉ d.inflightWitnessRequests)
    (hall : all.witness hash = some witness) :
    due all (d.downloadWitness hash) = .witness hash witness ::ₘ due all d := by
  have hready : all.ready .witness hash = some (.witness hash witness) := by
    simp only [Network.ready, hall, Option.map_some]
  simp only [due, inflight, downloadWitness, request_of_notMem hnew, List.filterMap_append,
    List.filterMap_cons_some hready, List.filterMap_nil, ← Multiset.coe_add, Multiset.coe_singleton,
    ← Multiset.singleton_add]
  abel

theorem due_downloadBytecode {hash : B256} {bytecode : Bytecode} (hnew : hash ∉ d.inflightBytecodeRequests)
    (hall : all.bytecode hash = some bytecode) :
    due all (d.downloadBytecode hash) = .bytecode hash bytecode ::ₘ due all d := by
  have hready : all.ready .bytecode hash = some (.bytecode hash bytecode) := by
    simp only [Network.ready, hall, Option.map_some]
  simp only [due, inflight, downloadBytecode, request_of_notMem hnew, List.filterMap_append,
    List.filterMap_cons_some hready, List.filterMap_nil, ← Multiset.coe_add, Multiset.coe_singleton,
    ← Multiset.singleton_add]
  abel

/-- requesting a list of bytecodes, none of them requested already -/
theorem due_downloadBytecodes {hashes : List B256} (hnodup : hashes.Nodup) {d : EngineDownloader}
    (hnew : ∀ hash ∈ hashes, hash ∉ d.inflightBytecodeRequests) {code : B256 → Bytecode}
    (hall : ∀ hash ∈ hashes, all.bytecode hash = some (code hash)) :
    due all (hashes.foldl (fun d hash => d.downloadBytecode hash) d) =
      (hashes.map fun hash => .bytecode hash (code hash) : List DownloadData) + due all d := by
  induction hashes generalizing d with
  | nil => simp
  | cons hash hashes ih =>
    rw [List.nodup_cons] at hnodup
    have hnext : ∀ k ∈ hashes, k ∉ (d.downloadBytecode hash).inflightBytecodeRequests := by
      intro k hk hmem
      simp only [downloadBytecode, request_of_notMem (hnew hash List.mem_cons_self), List.mem_append,
        List.mem_singleton] at hmem
      rcases hmem with hmem | rfl
      · exact hnew k (List.mem_cons_of_mem _ hk) hmem
      · exact hnodup.1 hk
    rw [List.foldl_cons, ih hnodup.2 hnext fun k hk => hall k (List.mem_cons_of_mem _ hk),
      due_downloadBytecode (hnew hash List.mem_cons_self) (hall hash List.mem_cons_self), List.map_cons,
      ← Multiset.cons_coe, Multiset.cons_add, Multiset.add_cons]

end EngineDownloader

end Ress
