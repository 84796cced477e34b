/-
Requests are conserved: what a poll pass makes of the requests in flight, and what happens to the outcomes.

A pass takes each request out of its list by descending index and puts it back at the end if it is not ready, so the
requests move while it runs. `advanceRequestsLogged` is the pass with a log of the requests it polls; it has no value
when an index is out of bounds. Below the index the list is as it was before the pass, and from the index on it holds the
requests that were polled and are not ready, in some order (`advanceLogged_eq`).

- `advanceRequests_pass`: a pass polls every request in flight once, in bounds, and queues the outcome of each ready one.
- `History`: all outcomes that were queued and that were handed out.
- `downloads_conserved`: in every run of requests and polls.
-/
import Ress.Lib.Run
import Ress.Download.Requests
import Ress.Download.Futs

namespace Ress

inductive RequestMetricTy where
  | fullBlock
  | bytecode
  | witness
  | finalized
deriving DecidableEq, Repr

/-- what a request of this kind is ready with -/
def Network.ready (net : Network) : RequestMetricTy → B256 → Option DownloadData
  | .fullBlock => fun hash => (net.fullBlock hash).map .fullBlock
  | .bytecode => fun hash => (net.bytecode hash).map (.bytecode hash)
  | .witness => fun hash => (net.witness hash).map (.witness hash)
  | .finalized => fun hash => (net.finalizedBlock hash).map fun x => .finalizedBlock x.1 x.2

/-- a request that was polled, with what it was ready with -/
structure PolledRequest where
  ty : RequestMetricTy
  hash : B256
  answer : Option DownloadData
deriving DecidableEq, Repr

namespace EngineDownloader

def inflight (d : EngineDownloader) : RequestMetricTy → List B256
  | .fullBlock => d.inflightFullBlockRequests
  | .bytecode => d.inflightBytecodeRequests
  | .witness => d.inflightWitnessRequests
  | .finalized => d.inflightFinalizedBlockRequests

/-! ## A pass with its log -/

/-- `advance` with the requests it polls; no value when an index is out of bounds -/
def advanceLogged (ty : RequestMetricTy) (ready : B256 → Option DownloadData) :
    ℕ → List B256 → List DownloadData → Option (List PolledRequest × List B256 × List DownloadData)
  | 0, requests, outcomes => some ([], requests, outcomes)
  | idx + 1, requests, outcomes => do
    let (request, requests) ← swapRemove requests idx
    let (log, requests, outcomes) ←
      match ready request with
      | some data => advanceLogged ty ready idx requests (outcomes ++ [data])
      | none => advanceLogged ty ready idx (requests ++ [request]) outcomes
    some (⟨ty, request, ready request⟩ :: log, requests, outcomes)

def advanceAllLogged (net : Network) (ty : RequestMetricTy) (requests : List B256) (outcomes : List DownloadData) :
    Option (List PolledRequest × List B256 × List DownloadData) :=
  advanceLogged ty (net.ready ty) requests.length requests outcomes

/-- `advanceRequests` with the requests it polls -/
def advanceRequestsLogged (net : Network) (d : EngineDownloader) : Option (List PolledRequest × EngineDownloader) := do
  let (finalizedLog, finalized, outcomes) ← advanceAllLogged net .finalized d.inflightFinalizedBlockRequests d.outcomes
  let (fullLog, full, outcomes) ← advanceAllLogged net .fullBlock d.inflightFullBlockRequests outcomes
  let (witnessLog, witness, outcomes) ← advanceAllLogged net .witness d.inflightWitnessRequests outcomes
  let (bytecodeLog, bytecode, outcomes) ← advanceAllLogged net .bytecode d.inflightBytecodeRequests outcomes
  some (finalizedLog ++ (fullLog ++ (witnessLog ++ bytecodeLog)), ⟨full, bytecode, witness, finalized, outcomes⟩)

/-- taking the request at the end of the part that was not polled yet -/
theorem swapRemove_append (pre suf : List B256) (x : B256) :
    ∃ suf', swapRemove (pre ++ x :: suf) pre.length = some (x, pre ++ suf') ∧ suf'.Perm suf := by
  have hget : (pre ++ x :: suf)[pre.length]? = some x := by simp
  cases suf using List.reverseRecOn with
  | nil =>
    refine ⟨[], ?_, List.Perm.refl _⟩
    simp [swapRemove]
  | append_singleton init last =>
    refine ⟨last :: init, ?_, (List.perm_append_singleton last init).symm⟩
    have hlast : (pre ++ x :: (init ++ [last])).getLast? = some last := by
      rw [← List.cons_append, ← List.append_assoc, List.getLast?_concat]
    have hdrop : (pre ++ last :: (init ++ [last])).dropLast = pre ++ last :: init := by
      rw [← List.cons_append, ← List.append_assoc, List.dropLast_concat]
    simp only [swapRemove, hget, hlast, List.set_append_right _ _ le_rfl, Nat.sub_self, List.set_cons_zero, hdrop]

/-- **The invariant of a pass.** Below the index nothing has moved, and from there on are requests that are not ready. -/
theorem advanceLogged_eq (ty : RequestMetricTy) (ready : B256 → Option DownloadData) (pre suf : List B256)
    (outcomes : List DownloadData) :
    ∃ rest, rest.Perm (pre.filter (fun hash => (ready hash).isNone) ++ suf) ∧
      advance ready pre.length (pre ++ suf) outcomes = (rest, outcomes ++ pre.reverse.filterMap ready) ∧
      advanceLogged ty ready pre.length (pre ++ suf) outcomes = some (pre.reverse.map fun hash => ⟨ty, hash, ready hash⟩,
        rest, outcomes ++ pre.reverse.filterMap ready) := by
  induction pre using List.reverseRecOn generalizing suf outcomes with
  | nil => exact ⟨suf, List.Perm.refl _, by simp [advance], by simp [advanceLogged]⟩
  | append_singleton pre x ih =>
    obtain ⟨suf', hswap, hperm⟩ := swapRemove_append pre suf x
    rw [List.length_append, List.length_singleton, List.append_assoc, List.singleton_append]
    simp only [advance, advanceLogged, hswap, Option.bind_eq_bind, Option.bind_some]
    cases hr : ready x with
    | some data =>
      obtain ⟨rest, hrest, hadvance, hlogged⟩ := ih suf' (outcomes ++ [data])
      refine ⟨rest, ?_, ?_, ?_⟩
      · simpa [hr] using hrest.trans (hperm.append_left _)
      · simp only [hadvance]
        simp [hr]
      · simp only [hlogged]
        simp [hr]
    | none =>
      obtain ⟨rest, hrest, hadvance, hlogged⟩ := ih (suf' ++ [x]) outcomes
      refine ⟨rest, ?_, ?_, ?_⟩
      · refine hrest.trans ?_
        have hmove : (suf' ++ [x]).Perm (x :: suf) := (List.perm_append_singleton x suf').trans (hperm.cons x)
        simpa [hr] using hmove.append_left (pre.filter fun hash => (ready hash).isNone)
      · simp only [List.append_assoc, hadvance]
        simp [hr]
      · simp only [List.append_assoc, hlogged]
        simp [hr]

/-- a pass over the requests of one kind -/
theorem advanceAllLogged_eq (net : Network) (ty : RequestMetricTy) (requests : List B256)
    (outcomes : List DownloadData) :
    ∃ rest, rest.Perm (requests.filter fun hash => (net.ready ty hash).isNone) ∧
      advanceAll (net.ready ty) requests outcomes = (rest, outcomes ++ requests.reverse.filterMap (net.ready ty)) ∧
      advanceAllLogged net ty requests outcomes = some (requests.reverse.map fun hash => ⟨ty, hash, net.ready ty hash⟩,
        rest, outcomes ++ requests.reverse.filterMap (net.ready ty)) := by
  simpa [advanceAll, advanceAllLogged] using advanceLogged_eq ty (net.ready ty) requests [] outcomes

/-! ## A pass over all requests -/

/-- what a pass does: every request in flight is polled once, the ready ones leave, and each of these queues its
outcome -/
structure Pass (net : Network) (d d' : EngineDownloader) (log : List PolledRequest) : Prop where
  polled : ∀ ty, ((log.filter fun p => p.ty = ty).map (·.hash)).Perm (d.inflight ty)
  answers : ∀ p ∈ log, p.answer = net.ready p.ty p.hash
  stays : ∀ ty, (d'.inflight ty).Perm ((d.inflight ty).filter fun hash => (net.ready ty hash).isNone)
  outcomes : d'.outcomes = d.outcomes ++ log.filterMap (·.answer)

/-- the requests of a kind, in the order in which they are polled -/
def polledRequests (net : Network) (d : EngineDownloader) (ty : RequestMetricTy) : List PolledRequest :=
  (d.inflight ty).reverse.map fun hash => ⟨ty, hash, net.ready ty hash⟩

/-- the requests of one kind in the log of another -/
theorem polledRequests_of_kind (net : Network) (d : EngineDownloader) (ty ty' : RequestMetricTy) :
    ((d.polledRequests net ty).filter fun p => p.ty = ty').map (·.hash) =
      if ty = ty' then (d.inflight ty).reverse else [] := by
  split_ifs with hty <;> simp [polledRequests, hty, List.filter_map, Function.comp_def]

/-- the outcomes of the ready requests of a kind, in the order in which they are polled -/
def readyOutcomes (net : Network) (d : EngineDownloader) (ty : RequestMetricTy) : List DownloadData :=
  (d.inflight ty).reverse.filterMap (net.ready ty)

/-- **A pass polls every request in flight once**, never out of bounds, and conserves them. -/
theorem advanceRequests_pass (net : Network) (d : EngineDownloader) :
    ∃ log, d.advanceRequestsLogged net = some (log, d.advanceRequests net) ∧ Pass net d (d.advanceRequests net) log := by
  obtain ⟨finalized, hfinalized, hpass₁, hlog₁⟩ := advanceAllLogged_eq net .finalized (d.inflight .finalized) d.outcomes
  obtain ⟨full, hfull, hpass₂, hlog₂⟩ := advanceAllLogged_eq net .fullBlock (d.inflight .fullBlock)
    (d.outcomes ++ d.readyOutcomes net .finalized)
  obtain ⟨witness, hwitness, hpass₃, hlog₃⟩ := advanceAllLogged_eq net .witness (d.inflight .witness)
    (d.outcomes ++ d.readyOutcomes net .finalized ++ d.readyOutcomes net .fullBlock)
  obtain ⟨bytecode, hbytecode, hpass₄, hlog₄⟩ := advanceAllLogged_eq net .bytecode (d.inflight .bytecode)
    (d.outcomes ++ d.readyOutcomes net .finalized ++ d.readyOutcomes net .fullBlock ++ d.readyOutcomes net .witness)
  have hadvance : d.advanceRequests net = ⟨full, bytecode, witness, finalized, d.outcomes ++
      d.readyOutcomes net .finalized ++ d.readyOutcomes net .fullBlock ++ d.readyOutcomes net .witness ++
      d.readyOutcomes net .bytecode⟩ := by
    simp only [readyOutcomes, inflight, Network.ready] at hpass₁ hpass₂ hpass₃ hpass₄
    simp only [advanceRequests, hpass₁, hpass₂, hpass₃, hpass₄, readyOutcomes, inflight, Network.ready]
  refine ⟨d.polledRequests net .finalized ++ (d.polledRequests net .fullBlock ++ (d.polledRequests net .witness ++
    d.polledRequests net .bytecode)), ?_, ?_, ?_, ?_, ?_⟩
  · simp only [readyOutcomes, inflight] at hlog₁ hlog₂ hlog₃ hlog₄
    simp only [advanceRequestsLogged, hlog₁, hlog₂, hlog₃, hlog₄, Option.bind_eq_bind, Option.bind_some, hadvance,
      readyOutcomes, polledRequests, inflight]
  · intro ty
    simp only [List.filter_append, List.map_append]
    cases ty <;> simp [polledRequests_of_kind, List.reverse_perm]
  · intro p hp
    simp only [polledRequests, List.mem_append, List.mem_map] at hp
    rcases hp with ⟨hash, -, rfl⟩ | ⟨hash, -, rfl⟩ | ⟨hash, -, rfl⟩ | ⟨hash, -, rfl⟩ <;> rfl
  · intro ty
    rw [hadvance]
    cases ty
    · exact hfull
    · exact hbytecode
    · exact hwitness
    · exact hfinalized
  · rw [hadvance]
    simp [List.filterMap_append, List.filterMap_map, readyOutcomes, polledRequests]

/-! ## One request for each kind and hash -/

/-- no two requests of a kind are for one hash -/
def Unique (d : EngineDownloader) : Prop := ∀ ty, (d.inflight ty).Nodup

theorem request_nodup {requests : List B256} (h : requests.Nodup) (hash : B256) : (request requests hash).Nodup := by
  simp only [request]
  split_ifs with hany
  · exact h
  · refine List.nodup_append.2 ⟨h, List.nodup_singleton hash, ?_⟩
    rintro k hk k' hk' rfl
    rw [List.mem_singleton.1 hk'] at hk
    exact hany (List.any_eq_true.2 ⟨hash, hk, decide_eq_true rfl⟩)

theorem Unique.advanceRequests {d : EngineDownloader} (h : d.Unique) (net : Network) :
    (d.advanceRequests net).Unique := by
  obtain ⟨log, -, hpass⟩ := advanceRequests_pass net d
  intro ty
  exact (hpass.stays ty).nodup_iff.2 ((h ty).filter _)

theorem Unique.poll {d : EngineDownloader} (h : d.Unique) (net : Network) : (d.poll net).2.Unique := by
  obtain ⟨d₁, hd, hsame, -⟩ := poll_cases net d
  have h₁ : d₁.Unique := by
    rcases hd with rfl | rfl
    · exact h
    · exact h.advanceRequests net
  intro ty
  rw [hsame]
  cases ty
  · exact h₁ .fullBlock
  · exact h₁ .bytecode
  · exact h₁ .witness
  · exact h₁ .finalized

/-! ## Runs -/

inductive Op where
  | downloadFullBlock (blockHash : B256)
  | downloadBytecode (codeHash : B256)
  | downloadWitness (blockHash : B256)
  | downloadFinalizedWithAncestors (blockHash : B256)
  | poll (net : Network)

/-- the downloader with all outcomes that passes have queued and that polls have handed out -/
structure History where
  downloader : EngineDownloader
  queued : List DownloadData
  handedOut : List DownloadData

def History.launch : History := ⟨EngineDownloader.new, [], []⟩

/-- the outcomes that a poll queues: none when it hands out one that is there -/
def queuedBy (net : Network) (d : EngineDownloader) : List DownloadData :=
  match d.popOutcome, d.advanceRequestsLogged net with
  | none, some (log, _) => log.filterMap (·.answer)
  | _, _ => []

def History.step (h : History) : Op → History
  | .downloadFullBlock blockHash => { h with downloader := h.downloader.downloadFullBlock blockHash }
  | .downloadBytecode codeHash => { h with downloader := h.downloader.downloadBytecode codeHash }
  | .downloadWitness blockHash => { h with downloader := h.downloader.downloadWitness blockHash }
  | .downloadFinalizedWithAncestors blockHash =>
    { h with downloader := h.downloader.downloadFinalizedWithAncestors blockHash }
  | .poll net =>
    ⟨(h.downloader.poll net).2, h.queued ++ h.downloader.queuedBy net,
      h.handedOut ++ (h.downloader.poll net).1.toList⟩

/-- requests are unique, and the outcomes that are there are those queued and not yet handed out, in order -/
structure History.Kept (h : History) : Prop where
  unique : h.downloader.Unique
  ordered : h.handedOut ++ h.downloader.outcomes = h.queued

theorem Unique.download {d d' : EngineDownloader} (h : d.Unique)
    (hd : ∀ ty, d'.inflight ty = d.inflight ty ∨ ∃ hash, d'.inflight ty = request (d.inflight ty) hash) :
    d'.Unique := by
  intro ty
  rcases hd ty with heq | ⟨hash, heq⟩
  · rw [heq]
    exact h ty
  · rw [heq]
    exact request_nodup (h ty) hash

/-- a poll takes the first outcome from those that were there and those it queued -/
theorem poll_outcomes (net : Network) (d : EngineDownloader) :
    (d.poll net).1.toList ++ (d.poll net).2.outcomes = d.outcomes ++ d.queuedBy net := by
  obtain ⟨log, hlog, hpass⟩ := advanceRequests_pass net d
  simp only [poll, popOutcome, queuedBy, hlog]
  cases ho : d.outcomes with
  | cons outcome outcomes => simp
  | nil =>
    have hafter : (d.advanceRequests net).outcomes = log.filterMap (·.answer) := by simpa [ho] using hpass.outcomes
    simp only [hafter, List.nil_append]
    cases hq : log.filterMap (·.answer) with
    | cons outcome outcomes => simp
    | nil => simp [hafter, hq]

theorem History.Kept.step {h : History} (hk : h.Kept) (op : Op) : (h.step op).Kept := by
  cases op with
  | poll net =>
    refine ⟨hk.unique.poll net, ?_⟩
    show h.handedOut ++ (h.downloader.poll net).1.toList ++ (h.downloader.poll net).2.outcomes = _
    rw [List.append_assoc, poll_outcomes, ← List.append_assoc, hk.ordered]
    rfl
  | downloadFullBlock blockHash =>
    refine ⟨hk.unique.download fun ty => ?_, hk.ordered⟩
    cases ty with
    | fullBlock => exact Or.inr ⟨blockHash, rfl⟩
    | _ => exact Or.inl rfl
  | downloadBytecode codeHash =>
    refine ⟨hk.unique.download fun ty => ?_, hk.ordered⟩
    cases ty with
    | bytecode => exact Or.inr ⟨codeHash, rfl⟩
    | _ => exact Or.inl rfl
  | downloadWitness blockHash =>
    refine ⟨hk.unique.download fun ty => ?_, hk.ordered⟩
    cases ty with
    | witness => exact Or.inr ⟨blockHash, rfl⟩
    | _ => exact Or.inl rfl
  | downloadFinalizedWithAncestors blockHash =>
    refine ⟨hk.unique.download fun ty => ?_, hk.ordered⟩
    cases ty with
    | finalized => exact Or.inr ⟨blockHash, rfl⟩
    | _ => exact Or.inl rfl

/-- the outcome is of the kind and for the hash that were asked for -/
def Carries : RequestMetricTy → B256 → DownloadData → Prop
  | .fullBlock, hash, .fullBlock block => block.hash = hash
  | .bytecode, hash, .bytecode codeHash _ => codeHash = hash
  | .witness, hash, .witness blockHash _ => blockHash = hash
  | .finalized, hash, .finalizedBlock block _ => block.hash = hash
  | _, _, _ => False

end EngineDownloader

open EngineDownloader (Carries History)

/-- a block request is ready with a block that its future resolves to, after some polls -/
structure Network.Resolves {E : Env} (D : DownloadEnv E) (net : Network) : Prop where
  fullBlock : ∀ hash block, net.fullBlock hash = some block →
    ∃ found, (Polling.polls (FetchFullBlockFuture.poll D) found (FetchFullBlockFuture.new hash)).1 = .ready block
  finalizedBlock : ∀ hash value, net.finalizedBlock hash = some value →
    ∃ found, (Polling.polls (FetchFullBlockWithAncestorsFuture.poll D) found
      (FetchFullBlockWithAncestorsFuture.new hash 256)).1 = .ready value

/-- what a request is ready with is for its own hash -/
theorem Network.Resolves.carries {E : Env} {D : DownloadEnv E} {net : Network} (h : net.Resolves D)
    {ty : RequestMetricTy} {hash : B256} {data : DownloadData} (hready : net.ready ty hash = some data) :
    Carries ty hash data := by
  cases ty with
  | fullBlock =>
    obtain ⟨block, hblock, rfl⟩ := Option.map_eq_some_iff.1 hready
    obtain ⟨found, hpolls⟩ := h.fullBlock hash block hblock
    have hsound := Polling.polls_rule FetchFullBlockFuture.poll_promises found _
      (FetchFullBlockFuture.Fetches.new D hash)
    generalize Polling.polls _ _ _ = result at hpolls hsound
    obtain ⟨answer, f⟩ := result
    cases hpolls
    exact hsound.1
  | bytecode =>
    obtain ⟨bytecode, -, rfl⟩ := Option.map_eq_some_iff.1 hready
    rfl
  | witness =>
    obtain ⟨witness, -, rfl⟩ := Option.map_eq_some_iff.1 hready
    rfl
  | finalized =>
    obtain ⟨value, hvalue, rfl⟩ := Option.map_eq_some_iff.1 hready
    obtain ⟨found, hpolls⟩ := h.finalizedBlock hash value hvalue
    have hsound := Polling.polls_rule FetchFullBlockWithAncestorsFuture.poll_promises found _
      (FetchFullBlockWithAncestorsFuture.Fetches.new D hash 256)
    generalize Polling.polls _ _ _ = result at hpolls hsound
    obtain ⟨answer, f⟩ := result
    cases hpolls
    exact hsound.1.1

/-- **Requests are conserved.** After every run of requests and polls, whatever was ready at each poll: no two requests of
a kind are for one hash; the next pass polls every request in flight exactly once, in bounds, the ready ones leave and
each queues one outcome that carries its own hash, and the others stay; and the outcomes handed out so far, followed by
those that wait, are those queued, in the order in which they were. -/
theorem downloads_conserved {E : Env} (D : DownloadEnv E) (ops : List EngineDownloader.Op) (net : Network)
    (hnet : net.Resolves D) :
    let h := Run.run History.step History.launch ops
    (∀ ty, (h.downloader.inflight ty).Nodup) ∧
      (∃ log, h.downloader.advanceRequestsLogged net = some (log, h.downloader.advanceRequests net) ∧
        EngineDownloader.Pass net h.downloader (h.downloader.advanceRequests net) log ∧
        ∀ p ∈ log, ∀ data, p.answer = some data → Carries p.ty p.hash data) ∧
      h.handedOut ++ h.downloader.outcomes = h.queued := by
  intro h
  have hkept : h.Kept := by
    refine Run.run_preserves (I := History.Kept) (fun h op hk => hk.step op) ops ⟨?_, rfl⟩
    intro ty
    cases ty <;> exact List.nodup_nil
  refine ⟨hkept.unique, ?_, hkept.ordered⟩
  obtain ⟨log, hlog, hpass⟩ := EngineDownloader.advanceRequests_pass net h.downloader
  refine ⟨log, hlog, hpass, ?_⟩
  intro p hp data hdata
  rw [hpass.answers p hp] at hdata
  exact hnet.carries hdata

/-- the block with hash 3 is ready, and a witness for it -/
def oneReady : Network where
  fullBlock hash := if hash = 3 then some ⟨⟨⟨2, 2, 0, 0, []⟩, 3⟩, ⟨[], []⟩⟩ else none
  bytecode _ := none
  witness hash := if hash = 3 then some ⟨[], 0⟩ else none
  finalizedBlock _ := none

theorem oneReady_resolves : oneReady.Resolves smallDownloads where
  fullBlock hash block h := by
    simp only [oneReady] at h
    split_ifs at h with hh
    cases h
    subst hh
    exact ⟨[[⟨some (.ok [⟨2, 2, 0, 0, []⟩]), some (.ok [⟨[], []⟩])⟩]], by decide +kernel⟩
  finalizedBlock hash value h := by simp [oneReady] at h

/-- three blocks are requested, one of them twice, and one is ready -/
theorem downloads_conserved_three :
    let h := Run.run History.step History.launch
      [.downloadFullBlock 2, .downloadFullBlock 3, .downloadWitness 3, .downloadFullBlock 4, .downloadFullBlock 2,
        .poll Network.silent]
    (∀ ty, (h.downloader.inflight ty).Nodup) ∧
      (∃ log, h.downloader.advanceRequestsLogged oneReady = some (log, h.downloader.advanceRequests oneReady) ∧
        EngineDownloader.Pass oneReady h.downloader (h.downloader.advanceRequests oneReady) log ∧
        ∀ p ∈ log, ∀ data, p.answer = some data → Carries p.ty p.hash data) ∧
      h.handedOut ++ h.downloader.outcomes = h.queued :=
  downloads_conserved smallDownloads _ oneReady oneReady_resolves

end Ress
