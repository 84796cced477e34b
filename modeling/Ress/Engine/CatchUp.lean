/-
Catching up.

A node that is behind by a gap fetches it from the sync target down, one block at a time, and then inserts it from its
lowest block up.

- `CatchingUp`: the node is synced, or fetches a block, and at most `m` outcomes are still to arrive.
- `Advancing.step`: a poll adds nothing to them, and one in which the peers answer takes one off.
- `catches_up`: a forkchoice update to an unknown head starts it. After as many polls in which the peers answer as there
  are blocks, witnesses and codes in the gap, that block is the head.

The premises on the peers are stated (`Fair`, `Gap.ServedBy`): what they answer is right, and they have the whole gap.
Nothing is said of when they answer, or in which order.
-/
import Ress.Engine.Fetching
import Ress.Engine.OrderFree

namespace Ress

namespace ConsensusEngine

open EngineTree (HoldsTo)
open EngineDownloader (due)

variable {E : Env} {W : World} {code : B256 → Option Bytecode} {G : Gap E W code} {all : Network}
  {e : ConsensusEngine E} {j : ℕ} {here : Bool} {missing : Option (Finset B256)}

/-! ## From the sync target down -/

/-- the gap is closed, and nothing more is due -/
structure Synced (G : Gap E W code) (all : Network) (e : ConsensusEngine E) : Prop where
  closed : G.Closed e.tree
  due : due all e.downloader = 0
  unparked : e.parkedPayload = none

/-- the node is synced, or at most `m` outcomes are still to arrive until it is -/
inductive CatchingUp (G : Gap E W code) (all : Network) (m : ℕ) (e : ConsensusEngine E) : Prop
  | synced (h : Synced G all e)
  | fetching {j : ℕ} {here : Bool} {missing : Option (Finset B256)} (h : Fetching G j here missing e)
      (hopen : ¬ (here = true ∧ missing = some ∅)) (hdue : due all e.downloader = awaited G j here missing)
      (hle : remaining G j here missing + G.cost j ≤ m)

/-- something is awaited of a block that is not complete -/
theorem awaited_ne_zero (hopen : ¬ (here = true ∧ missing = some ∅)) : awaited G j here missing ≠ 0 := by
  intro hzero
  obtain ⟨hblock, hrest⟩ := add_eq_zero.1 hzero
  refine hopen ⟨?_, ?_⟩
  · by_contra hfalse
    rw [if_neg hfalse] at hblock
    exact Multiset.singleton_ne_zero _ hblock
  · cases missing with
    | none => exact absurd hrest (Multiset.singleton_ne_zero _)
    | some s => exact congrArg some (Finset.val_eq_zero.1 (Multiset.map_eq_zero.1 hrest))

theorem remaining_pos (hopen : ¬ (here = true ∧ missing = some ∅)) : 0 < remaining G j here missing := by
  cases here with
  | false =>
    simp only [remaining, Bool.false_eq_true, if_false]
    omega
  | true =>
    cases missing with
    | none =>
      simp only [remaining]
      omega
    | some s =>
      have hne : s ≠ ∅ := fun hs => hopen ⟨rfl, congrArg some hs⟩
      have hpos := Finset.card_pos.2 (Finset.nonempty_iff_ne_empty.2 hne)
      simp only [remaining]
      omega

/-- **A complete block leads on**: to the one below it, or the gap is closed. -/
theorem Fetching.unlock (laws : EvmLaws E) (hleaf : LeafLaw E) (hserves : G.ServedBy all)
    (h : Fetching G j here missing e) (hread : e.tree.provider.database.readError = none)
    (hdue : due all e.downloader = awaited G j here missing) {unlocked : Finset B256}
    (hunlocked : Unlocks G j here missing unlocked) (sched : StateRoot.Schedule) :
    CatchingUp G all (remaining G j here missing + G.cost j) (e.insertAllUnlocked sched unlocked) := by
  by_cases hopen : here = true ∧ missing = some ∅
  · obtain ⟨rfl, rfl⟩ := hopen
    have hzero : due all e.downloader = 0 := hdue
    rw [hunlocked.2 rfl rfl]
    simp only [insertAllUnlocked, sched.order.list_singleton, List.foldl_cons, List.foldl_nil]
    cases j with
    | zero =>
      obtain ⟨hclosed, hdownloader, hunparked⟩ := h.insertUnlocked_closes laws hleaf hread sched
      exact .synced ⟨hclosed, by rw [hdownloader]; exact hzero, hunparked⟩
    | succ j =>
      obtain ⟨hnext, hdue'⟩ := h.insertUnlocked_next hserves hread hzero sched
      refine .fetching hnext (fun hcontra => Bool.false_ne_true hcontra.1) hdue' ?_
      simp only [remaining, Gap.cost, Bool.false_eq_true, if_false]
      omega
  · have hstays : Fetching G j here missing (e.insertAllUnlocked sched unlocked) ∧
        (e.insertAllUnlocked sched unlocked).downloader = e.downloader := by
      rcases hunlocked.1 with rfl | rfl
      · have hnone : sched.order.list ∅ = [] :=
          List.eq_nil_iff_forall_not_mem.2 fun a ha => Finset.notMem_empty a ((sched.order.mem ∅ a).1 ha)
        simp only [insertAllUnlocked, hnone, List.foldl_nil]
        exact ⟨h, trivial⟩
      · simp only [insertAllUnlocked, sched.order.list_singleton, List.foldl_cons, List.foldl_nil]
        exact h.insertUnlocked_incomplete hopen sched
    exact .fetching hstays.1 hopen (by rw [hstays.2]; exact hdue) le_rfl

/-- **An outcome.** One that is due is handled without an error, and one fewer remains. -/
theorem Fetching.onDownloadOutcome (laws : EvmLaws E) (hleaf : LeafLaw E) (hserves : G.ServedBy all) {m : ℕ}
    {data : DownloadData} (h : Fetching G j here missing e) (hread : e.tree.provider.database.readError = none)
    (hwrite : e.tree.provider.database.writeError = none)
    (hdue : awaited G j here missing = data ::ₘ due all e.downloader) (hle : remaining G j here missing + G.cost j ≤ m)
    (sched : StateRoot.Schedule) :
    ∃ e', e.onDownloadOutcome sched data = (.ok (), e') ∧ CatchingUp G all (m - 1) e' := by
  obtain ⟨here', missing', unlocked, e', hreceive, hfetching, hdue', hread', hless, hunlocked⟩ :=
    h.receive hserves hread hwrite hdue sched
  refine ⟨e'.insertAllUnlocked sched unlocked, by simp only [ConsensusEngine.onDownloadOutcome, hreceive], ?_⟩
  cases hfetching.unlock laws hleaf hserves (hread'.trans hread) hdue' hunlocked sched with
  | synced hsynced => exact .synced hsynced
  | fetching hnext hopen hnextDue hnextLe => exact .fetching hnext hopen hnextDue (by omega)

/-- the database works or fails as it likes -/
theorem holdsTo_afterPoll (h : HoldsTo (trusting code) W e.tree) (io : Io) :
    HoldsTo (trusting code) W (e.afterPoll io).tree := by
  obtain ⟨hcoherent, havailable, hcodes, hwitnesses, hstored, hjudged⟩ := h
  exact ⟨⟨⟨hcoherent.wf.chain, hcoherent.wf.buffer⟩, hcoherent.chain⟩, ⟨havailable.buffered, havailable.inserted⟩,
    hcodes, hwitnesses, hstored, hjudged⟩

theorem Fetching.afterPoll (h : Fetching G j here missing e) (io : Io) : Fetching G j here missing (e.afterPoll io) :=
  ⟨h.lt, h.fits, climbed_congr h.climbed (holdsTo_afterPoll h.climbed.holds io) rfl rfl rfl, h.clean, h.buffer, h.named,
    h.unparked⟩

/-! ## The forkchoice update -/

/-- a node that has the block below the gap, and neither has nor is fetching anything of the gap -/
structure Behind (G : Gap E W code) (all : Network) (e : ConsensusEngine E) : Prop where
  pos : 0 < G.length
  fits : G.length ≤ 256
  base : e.tree.provider.chainState.blocksByHash.get (G.block 0).hash = some (G.block 0)
  new : ∀ i, 0 < i → i ≤ G.length → ¬ e.tree.Stored (G.block i).hash
  answers : e.tree.provider.chainState.AnswersBelow (G.block 0)
  meets : e.tree.provider.chainState.Meets (G.block 0).hash e.tree.canonicalHead.hash
  clean : ∀ i ≤ G.length, e.tree.invalidHeader (G.block i).hash = none
  buffer : G.Buffered G.length false none e.tree.blockBuffer
  quiet : due all e.downloader = 0
  unparked : e.parkedPayload = none

/-- the update names the end of the gap as head; the other hashes are not given, or known -/
structure SyncsTo (G : Gap E W code) (t : EngineTree E) (state : ForkchoiceState) : Prop where
  head : state.headBlockHash = G.target
  nonzero : G.target ≠ 0
  finalized : state.finalizedBlockHash = 0 ∨ t.Stored state.finalizedBlockHash
  safe : state.safeBlockHash = 0 ∨ t.Stored state.safeBlockHash ∨ state.safeBlockHash = G.target

variable {state : ForkchoiceState}

theorem Behind.afterPoll (h : Behind G all e) {io : Io} (hio : io.network.From all) :
    e.delivered io = none ∧ Behind G all (e.afterPoll io) := by
  have hpoll := EngineDownloader.poll_due hio e.downloader
  rw [h.quiet] at hpoll
  obtain ⟨hfirst, hrest⟩ := add_eq_zero.1 hpoll.symm
  refine ⟨?_, h.pos, h.fits, h.base, h.new, h.answers, h.meets, h.clean, h.buffer, hrest, h.unparked⟩
  cases hdelivered : e.delivered io with
  | none => rfl
  | some data =>
    have hout : (e.downloader.poll io.network).1 = some data := hdelivered
    rw [hout] at hfirst
    exact absurd hfirst (Multiset.singleton_ne_zero data)

theorem Behind.notStored (h : Behind G all e) : ¬ e.tree.Stored G.target := h.new G.length h.pos le_rfl

/-- the head is not buffered, and neither stored -/
theorem Behind.unknown (h : Behind G all e) : e.tree.isBlockPersistedOrBuffered G.target = false := by
  have hstored : e.tree.provider.sealedHeader G.target = none := ChainState.sealedHeader_none.2 h.notStored
  have hblocks : e.tree.blockBuffer.blocks.get G.target = none := h.buffer.notBuffered (Or.inr ⟨rfl, rfl⟩) le_rfl
  simp only [EngineTree.isBlockPersistedOrBuffered, hstored, hblocks, Option.isSome_none, Bool.or_false]

theorem Behind.lowest (h : Behind G all e) : e.tree.lowestBufferedAncestorOr G.target = G.target := by
  have hblocks : e.tree.blockBuffer.blocks.get G.target = none := h.buffer.notBuffered (Or.inr ⟨rfl, rfl⟩) le_rfl
  simp only [EngineTree.lowestBufferedAncestorOr, BlockBuffer.lowestAncestor, hblocks, Option.map_none,
    Option.getD_none]

/-- the head is requested -/
theorem Behind.syncTargetEvent (h : Behind G all e) (hstate : SyncsTo G e.tree state) :
    e.tree.syncTargetEvent state = some (TreeEvent.downloadBlock G.target) := by
  have hknown : ∀ hash, e.tree.Stored hash → e.tree.isBlockPersistedOrBuffered hash = true := by
    intro hash hs
    have hsome : (e.tree.provider.sealedHeader hash).isSome = true := ChainState.sealedHeader_isSome.2 hs
    simp only [EngineTree.isBlockPersistedOrBuffered, hsome, Bool.true_or]
  have hfinalized : ¬ (state.finalizedBlockHash ≠ 0 ∧
      ¬ e.tree.isBlockPersistedOrBuffered state.finalizedBlockHash = true) := fun hmissing =>
    hmissing.2 (hknown _ (hstate.finalized.resolve_left hmissing.1))
  have htarget : (if state.safeBlockHash ≠ 0 ∧ ¬ e.tree.isBlockPersistedOrBuffered state.safeBlockHash = true then
      state.safeBlockHash else state.headBlockHash) = G.target := by
    split_ifs with hsafe
    · exact ((hstate.safe.resolve_left hsafe.1).resolve_left fun hs => hsafe.2 (hknown _ hs))
    · exact hstate.head
  have hother : G.target ≠ state.finalizedBlockHash := by
    rcases hstate.finalized with hzero | hs
    · rw [hzero]
      exact hstate.nonzero
    · rintro heq
      exact h.notStored (by rw [heq]; exact hs)
  simp only [EngineTree.syncTargetEvent, if_neg hfinalized, htarget, h.lowest, h.unknown]
  rw [if_pos ⟨hother, Bool.false_ne_true⟩]

/-- **The update is answered with `SYNCING`**, and only the cache is touched. -/
theorem Behind.treeUpdate (h : Behind G all e) (hholds : HoldsTo (trusting code) W e.tree)
    (hstate : SyncsTo G e.tree state) (sched : StateRoot.Schedule) (attrs : Option E.validator.PayloadAttributes)
    (version : ℕ) : e.tree.onForkchoiceUpdated sched state attrs version =
      (.ok ⟨.valid ⟨.syncing, none⟩, some (TreeEvent.downloadBlock G.target)⟩, e.tree.afterLookup G.target) := by
  have hlookup : E.cache.get e.tree.invalidHeaders G.target =
      (none, (E.cache.get e.tree.invalidHeaders G.target).2) := by
    refine Prod.ext ?_ rfl
    cases hget : (E.cache.get e.tree.invalidHeaders G.target).1 with
    | none => rfl
    | some x => cases (h.clean G.length le_rfl).symm.trans (E.cache.get_entry _ _ _ hget)
  have hpre : e.tree.preValidateForkchoiceUpdate state = (none, e.tree.afterLookup G.target) := by
    simp only [EngineTree.preValidateForkchoiceUpdate, hstate.head, if_neg hstate.nonzero, h.lowest,
      EngineTree.checkInvalidAncestor]
    rw [hlookup]
    rfl
  have hother : ¬ (e.tree.afterLookup G.target).canonicalHead.hash = state.headBlockHash := by
    rw [hstate.head]
    intro heq
    have hs : e.tree.Stored e.tree.canonicalHead.hash := hholds.coherent.chain.headStored
    exact h.notStored (heq ▸ hs)
  have hhead : (e.tree.afterLookup G.target).onNewHead state.headBlockHash = none := by
    rw [hstate.head]
    cases hupdate : (e.tree.afterLookup G.target).onNewHead G.target with
    | none => rfl
    | some update =>
      obtain ⟨htip, -, -⟩ := ChainState.onNewHead_stored hupdate
      exact absurd (ChainState.sealedHeader_isSome.1 (Option.isSome_of_eq_some htip)) h.notStored
  have hstored : ¬ ((e.tree.afterLookup G.target).provider.sealedHeader state.headBlockHash).isSome = true := by
    rw [hstate.head]
    exact fun hs => h.notStored (ChainState.sealedHeader_isSome.1 hs)
  have hevent : (e.tree.afterLookup G.target).syncTargetEvent state = some (TreeEvent.downloadBlock G.target) :=
    h.syncTargetEvent hstate
  simp only [EngineTree.onForkchoiceUpdated, hpre, if_neg hother, hhead, if_neg hstored, hevent]

/-- **The update starts the sync**: the block at the end and its witness are requested. -/
theorem Behind.onForkchoiceUpdated (h : Behind G all e) (hholds : HoldsTo (trusting code) W e.tree)
    (hread : e.tree.provider.database.readError = none) (hserves : G.ServedBy all) (hstate : SyncsTo G e.tree state)
    (htracks : ∀ tracker, E.tracker.syncTargetState (E.tracker.setLatest tracker state (.valid ⟨.syncing, none⟩)) =
      some state) (sched : StateRoot.Schedule) (attrs : Option E.validator.PayloadAttributes) (tx version : ℕ) :
    Fetching G (G.length - 1) false none (e.onEngineMessage sched (.forkchoiceUpdated state attrs tx version)) ∧
      due all (e.onEngineMessage sched (.forkchoiceUpdated state attrs tx version)).downloader =
        awaited G (G.length - 1) false none := by
  have hmessage : EngineTree.MessageKnown (E := E) W (.forkchoiceUpdated state attrs tx version) := trivial
  have hkept := Node.onEngineMessage_holdsTo (trusting_upholds code W) hholds hread sched hmessage
  obtain ⟨n, hn⟩ : ∃ n, G.length = n + 1 := ⟨G.length - 1, by have := h.pos; omega⟩
  have htarget : G.target = (G.block (n + 1)).hash := by rw [Gap.target, hn]
  have hbuffer : G.Buffered (n + 1) false none e.tree.blockBuffer := by
    rw [← hn]
    exact h.buffer
  have hwitness : e.tree.blockBuffer.witnesses.get (G.block (n + 1)).hash = none := hbuffer.own
  have hupdate : (e.note (.forkchoiceUpdated state attrs tx version)).tree.onForkchoiceUpdated sched state attrs
      version = (.ok ⟨.valid ⟨.syncing, none⟩, some (TreeEvent.downloadBlock G.target)⟩, e.tree.afterLookup G.target) :=
    h.treeUpdate hholds hstate sched attrs version
  have hlength : G.length - 1 = n := by omega
  rw [hlength]
  simp only [onEngineMessage, ConsensusEngine.onForkchoiceUpdated, hupdate, finishForkchoice, onMaybeTreeEvent,
    TreeEvent.downloadBlock, onTreeEvent, htarget] at hkept ⊢
  simp only [EngineTree.emitEvent, EngineTree.setLatest, EngineTree.afterLookup, EngineTree.withCache, hwitness, if_true,
    send, note] at hkept ⊢
  refine ⟨⟨by omega, h.fits, ⟨hkept, ?_, fun i hpos hi => absurd hi (by omega), ?_, h.answers, h.meets, ?_⟩, ?_, hbuffer,
    ?_, h.unparked⟩, ?_⟩
  · intro i hi
    rw [Nat.le_zero.1 hi]
    exact h.base
  · exact h.new
  · intro hash
    simp only [EngineTree.isSyncTargetHead, htracks, hstate.head, decide_eq_true_eq]
    exact eq_comm
  · exact fun i hi => clean_lookup (h.clean i hi) _
  · intro s hs
    cases hs
  · exact due_request hserves (by omega) h.quiet

end ConsensusEngine

/-! ## Runs -/

namespace Node

open ConsensusEngine (Synced CatchingUp Fetching SyncsTo Io)
open EngineDownloader (due)

variable {E : Env} {W : World} {code : B256 → Option Bytecode} {G : Gap E W code} {all : Network} {n : Node E}

/-- peers answer with what `all` has, and the database works -/
structure Fair (all : Network) (io : Io) : Prop where
  answers : io.network.From all
  read : io.readError = none
  write : io.writeError = none

/-- a node without messages that is synced, or will be after at most `m` outcomes -/
structure Advancing (G : Gap E W code) (all : Network) (m : ℕ) (n : Node E) : Prop where
  running : n.terminated = none
  idle : n.engine.fromBeaconEngine = []
  engine : CatchingUp G all m n.engine

/-- a poll with no outcome does nothing -/
theorem step_pending (hrunning : n.terminated = none) (hidle : n.engine.fromBeaconEngine = [])
    (hparked : n.engine.parkedPayload = none) {io : Io} (hnone : n.engine.delivered io = none) :
    n.step (.poll io) = ⟨n.engine.afterPoll io, none⟩ := by
  have hafter : (n.engine.afterPoll io).parkedPayload = none := hparked
  have hqueue : (n.engine.afterPoll io).fromBeaconEngine = [] := hidle
  simp only [step, hrunning, ConsensusEngine.pollOnce, hnone, ConsensusEngine.pollParked, hafter,
    ConsensusEngine.pollMessage, hqueue]

/-- a poll with nothing due handles the message that has arrived -/
theorem step_message (hrunning : n.terminated = none) (hidle : n.engine.fromBeaconEngine = [])
    (hparked : n.engine.parkedPayload = none) {io : Io} (hnone : n.engine.delivered io = none)
    (message : BeaconEngineMessage E) : (n.step (.arrive message)).step (.poll io) =
      ⟨(n.engine.afterPoll io).onEngineMessage io.sched message, none⟩ := by
  obtain ⟨⟨tree, downloader, messages, parked, responses, handled⟩, terminated⟩ := n
  subst hrunning hidle hparked
  have hfirst : (downloader.poll io.network).1 = none := hnone
  simp only [step, ConsensusEngine.pollOnce, ConsensusEngine.delivered, hfirst, ConsensusEngine.pollParked,
    ConsensusEngine.pollMessage, ConsensusEngine.afterPoll, List.nil_append]

/-- **One poll.** It adds nothing to what remains, and takes an outcome off where peers answer. -/
theorem Advancing.step (laws : EvmLaws E) (hleaf : LeafLaw E) (hserves : G.ServedBy all) {m : ℕ}
    (h : Advancing G all m n) {io : Io} (hio : Fair all io) :
    ∃ m' ≤ m, Advancing G all m' (n.step (.poll io)) ∧ (io.network = all → m' ≤ m - 1) := by
  have hpoll := EngineDownloader.poll_due hio.answers n.engine.downloader
  cases hdelivered : n.engine.delivered io with
  | none =>
    have hfirst : (n.engine.downloader.poll io.network).1 = none := hdelivered
    have hsame : due all (n.engine.afterPoll io).downloader = due all n.engine.downloader := by
      rw [hpoll, hfirst]
      exact (zero_add _).symm
    cases h.engine with
    | synced hsynced =>
      rw [step_pending h.running h.idle hsynced.unparked hdelivered]
      have hstays : Synced G all (n.engine.afterPoll io) :=
        ⟨⟨hsynced.closed.stored, hsynced.closed.witnesses, hsynced.closed.head⟩, hsame.trans hsynced.due,
          hsynced.unparked⟩
      exact ⟨0, Nat.zero_le m, ⟨rfl, h.idle, .synced hstays⟩, fun _ => Nat.zero_le _⟩
    | fetching hfetching hopen hdue hle =>
      rw [step_pending h.running h.idle hfetching.unparked hdelivered]
      refine ⟨m, le_rfl, ⟨rfl, h.idle, .fetching (hfetching.afterPoll io) hopen (hsame.trans hdue) hle⟩, fun hall => ?_⟩
      -- an outcome is due, so peers that answer bring one
      have hne : due io.network n.engine.downloader ≠ 0 := by
        rw [hall, hdue]
        exact ConsensusEngine.awaited_ne_zero hopen
      have hsome := EngineDownloader.poll_isSome (fun _ _ => rfl) hne
      rw [hfirst] at hsome
      cases hsome
  | some data =>
    have hfirst : (n.engine.downloader.poll io.network).1 = some data := hdelivered
    have hnext : due all n.engine.downloader = data ::ₘ due all (n.engine.afterPoll io).downloader := by
      rw [hpoll, hfirst]
      exact Multiset.singleton_add data _
    cases h.engine with
    | synced hsynced =>
      rw [hsynced.due] at hnext
      exact absurd hnext.symm (Multiset.cons_ne_zero)
    | fetching hfetching hopen hdue hle =>
      obtain ⟨e, houtcome, hcatching⟩ := (hfetching.afterPoll io).onDownloadOutcome laws hleaf hserves hio.read hio.write
        (hdue.symm.trans hnext) hle io.sched
      have hqueue := (ConsensusEngine.onDownloadOutcome_settles (n.engine.afterPoll io) io.sched data).fromBeaconEngine
      rw [houtcome] at hqueue
      have hstep : n.step (.poll io) = ⟨e, none⟩ := by
        simp only [Node.step, h.running, ConsensusEngine.pollOnce, hdelivered, houtcome]
      rw [hstep]
      exact ⟨m - 1, Nat.sub_le m 1, ⟨rfl, hqueue.trans h.idle, hcatching⟩, fun _ => le_rfl⟩

/-- **One event** of a run in which peers are fair. -/
theorem Advancing.fair (laws : EvmLaws E) (hleaf : LeafLaw E) (hserves : G.ServedBy all) (m : ℕ) (n : Node E)
    (event : NodeEvent E) (h : Advancing G all m n) (hevent : ∃ io, event = .poll io ∧ Fair all io) :
    ∃ m' ≤ m, Advancing G all m' (n.step event) ∧
      ((∃ io : Io, event = .poll io ∧ io.network = all) → m' ≤ m - 1) := by
  obtain ⟨io, rfl, hio⟩ := hevent
  obtain ⟨m', hle, hnext, hless⟩ := h.step laws hleaf hserves hio
  refine ⟨m', hle, hnext, ?_⟩
  rintro ⟨io', heq, hall⟩
  cases heq
  exact hless hall

/-- nothing remains of a node that is synced, and only of such a one -/
theorem Advancing.synced (h : Advancing G all 0 n) : Synced G all n.engine := by
  cases h.engine with
  | synced hsynced => exact hsynced
  | @fetching j here missing _ hopen _ hle =>
    have hpos := ConsensusEngine.remaining_pos (G := G) (j := j) hopen
    omega

/-- **The update and the poll after it**: the whole gap remains. -/
theorem advancing_of_behind (hserves : G.ServedBy all) (hreached : n.Reached (trusting code) W)
    (hrunning : n.terminated = none) (hidle : n.engine.fromBeaconEngine = []) (hbehind : n.engine.Behind G all)
    {state : ForkchoiceState} (hstate : SyncsTo G n.engine.tree state)
    (htracks : ∀ tracker, E.tracker.syncTargetState (E.tracker.setLatest tracker state (.valid ⟨.syncing, none⟩)) =
      some state) (attrs : Option E.validator.PayloadAttributes) (tx version : ℕ) {io : Io} (hio : Fair all io) :
    Advancing G all (G.cost G.length)
      ((n.step (.arrive (.forkchoiceUpdated state attrs tx version))).step (.poll io)) := by
  obtain ⟨hnone, hafter⟩ := hbehind.afterPoll hio.answers
  obtain ⟨hfetching, hdue⟩ := hafter.onForkchoiceUpdated
    (ConsensusEngine.holdsTo_afterPoll (hreached.holdsTo (trusting_upholds code W)) io) hio.read hserves
    ⟨hstate.head, hstate.nonzero, hstate.finalized, hstate.safe⟩ htracks io.sched attrs tx version
  have hqueue : ((n.engine.afterPoll io).onEngineMessage io.sched
      (.forkchoiceUpdated state attrs tx version)).fromBeaconEngine = [] :=
    (ConsensusEngine.onForkchoiceUpdated_serves _ io.sched state attrs tx version).fromBeaconEngine.trans hidle
  have hcost : ConsensusEngine.remaining G (G.length - 1) false none + G.cost (G.length - 1) = G.cost G.length := by
    have hpos := hbehind.pos
    obtain ⟨k, hk⟩ : ∃ k, G.length = k + 1 := ⟨G.length - 1, by omega⟩
    rw [hk, Nat.add_sub_cancel]
    simp only [ConsensusEngine.remaining, Gap.cost, Bool.false_eq_true, if_false]
    omega
  rw [step_message hrunning hidle hbehind.unparked hnone]
  exact ⟨rfl, hqueue, .fetching hfetching (fun hcontra => Bool.false_ne_true hcontra.1) hdue hcost.le⟩

/-- **The polls after it**: once peers have answered in as many polls as outcomes remain, the node is synced. -/
theorem Advancing.closes (laws : EvmLaws E) (hleaf : LeafLaw E) (hserves : G.ServedBy all) {m : ℕ}
    (h : Advancing G all m n) {ios answered : List Io} (hfair : ∀ io ∈ ios, Fair all io) (hsub : answered.Sublist ios)
    (hanswers : ∀ io ∈ answered, io.network = all) (henough : m ≤ answered.length) :
    Advancing G all 0 (Run.run Node.step n (ios.map .poll)) := by
  have hsteps : Run.AllSteps Node.step (fun _ event => ∃ io, event = .poll io ∧ Fair all io) n (ios.map .poll) := by
    refine Run.allSteps_of_mem (fun event hevent => ?_) n
    obtain ⟨io, hmem, rfl⟩ := List.mem_map.1 hevent
    exact ⟨io, rfl, hfair io hmem⟩
  have hall : ∀ event ∈ answered.map (NodeEvent.poll (E := E)), ∃ io : Io, event = .poll io ∧ io.network = all := by
    intro event hevent
    obtain ⟨io, hmem, rfl⟩ := List.mem_map.1 hevent
    exact ⟨io, rfl, hanswers io hmem⟩
  obtain ⟨m', hle, hend⟩ :=
    Run.run_variant (Advancing.fair laws hleaf hserves) h hsteps (hsub.map NodeEvent.poll) hall
  rw [List.length_map] at hle
  obtain rfl : m' = 0 := by omega
  exact hend

/-- **A node catches up.** It is behind by a gap of at most 256 blocks, each valid on the one below it with its witness,
and gets a forkchoice update to the end of the gap. Then as many polls in which peers answer as there are blocks,
witnesses and bytecodes in the gap make that block its head, whatever the other polls bring and in whatever order. -/
theorem catches_up (laws : EvmLaws E) (hleaf : LeafLaw E) (hserves : G.ServedBy all)
    (hreached : n.Reached (trusting code) W) (hrunning : n.terminated = none) (hidle : n.engine.fromBeaconEngine = [])
    (hbehind : n.engine.Behind G all) {state : ForkchoiceState} (hstate : SyncsTo G n.engine.tree state)
    (htracks : ∀ tracker, E.tracker.syncTargetState (E.tracker.setLatest tracker state (.valid ⟨.syncing, none⟩)) =
      some state) (attrs : Option E.validator.PayloadAttributes) (tx version : ℕ) {io : Io} {ios answered : List Io}
    (hfair : ∀ io' ∈ io :: ios, Fair all io') (hsub : answered.Sublist ios)
    (hanswers : ∀ io' ∈ answered, io'.network = all) (henough : G.cost G.length ≤ answered.length) :
    (Run.run step n (.arrive (.forkchoiceUpdated state attrs tx version) :: .poll io :: ios.map .poll)).terminated =
        none ∧
      G.Closed (Run.run step n
        (.arrive (.forkchoiceUpdated state attrs tx version) :: .poll io :: ios.map .poll)).engine.tree := by
  have hstart := advancing_of_behind hserves hreached hrunning hidle hbehind hstate htracks attrs tx version
    (hfair io List.mem_cons_self)
  have hend := hstart.closes laws hleaf hserves (fun io' hmem => hfair io' (List.mem_cons_of_mem io hmem)) hsub
    hanswers henough
  exact ⟨hend.running, hend.synced.closed⟩

/-! ## A gap of two blocks -/

section Small

open Chain (mainBlock twoBranches mainBlock_knows)

theorem executeOn_small (db : Database AccountInfo) (block : Block) :
    executeOn smallEnv db block = (smallEvm.applyPreExecutionChanges (db.basic 0)).map fun _ => ((), ()) := by
  have hfold : ∀ (l : List Bytes) strategy, l.foldlM smallEvm.executeTransaction strategy = .ok strategy := by
    intro l strategy
    induction l with
    | nil => rfl
    | cons transaction l ih => exact ih
  change (do
    let strategy ← smallEvm.applyPreExecutionChanges (db.basic 0)
    let strategy ← block.body.transactions.foldlM smallEvm.executeTransaction strategy
    let (result, strategy) ← smallEvm.applyPostExecutionChanges strategy
    return (result, smallEvm.takeBundle strategy)) = _
  simp only [hfold]
  cases smallEvm.applyPreExecutionChanges (db.basic 0) <;> rfl

def smallEvmLaws : EvmLaws smallEnv where
  program _ := .ask (.basic 0) fun answer =>
    .done ((smallEvm.applyPreExecutionChanges answer).map fun _ => ((), ()))
  execute db block := executeOn_small db block
  fails db block read error hread herror := by
    simp only [Reading.Program.trail, List.mem_singleton] at hread
    subst hread
    rw [executeOn_small, show db.basic 0 = .error error from herror]
    exact ⟨_, rfl⟩
  codes db block codeHash h := by
    simp only [Reading.Program.trail, List.mem_singleton, reduceCtorEq] at h
  recent db block number h := by
    simp only [Reading.Program.trail, List.mem_singleton, reduceCtorEq] at h

theorem smallEnv_leafLaw : LeafLaw smallEnv where
  account root w trie a value hreveal hvalue := by
    cases hreveal
    change (if (witnessNodes smallCodec w).get 256 = some [1, 0] then some [0] else none) = some value at hvalue
    split_ifs at hvalue with hnode
    cases hvalue
    exact ⟨[1, 0], WitnessDatabase.mem_witnessNodes hnode, rfl⟩

def smallCode (codeHash : B256) : Option Bytecode := if codeHash = 7 then some ⟨[7]⟩ else none

/-- the first two blocks of the main branch -/
def smallGap : Gap smallEnv twoBranches smallCode where
  length := 2
  block := mainBlock
  witness _ := codeWitness
  known i hi := mainBlock_knows (by omega)
  valid i hi sched := by
    have hsorted : ∀ i < 2, (twoBranches.knowledge smallCode (mainBlock i).hash).judge smallEnv
        StateRoot.sortedSchedule (mainBlock (i + 1)) (mainBlock i).toSealedHeader codeWitness = .ok () := by
      intro i hi
      interval_cases i <;> rfl
    rcases Knowledge.judge_agrees StateRoot.smallEnv_storageTrieMap StateRoot.sortedSchedule sched with
      hsame | ⟨⟨error, herror, -⟩, -⟩
    · exact hsame.trans (hsorted i hi)
    · cases (hsorted i hi).symm.trans herror
  recovers _ _ := rfl

def smallPeers : Network :=
  ⟨fun hash => if hash = 2 ∨ hash = 3 then some (mainBlock (hash.toNat - 1)) else none, smallCode,
    fun hash => if hash = 2 ∨ hash = 3 then some codeWitness else none, fun _ => none⟩

/-- a pass in which the peers answer, or do not -/
def smallPass (network : Network) : Io := ⟨network, false, StateRoot.sortedSchedule, none, none⟩

/-- a pass in which the peers are silent, and six in which they answer -/
def smallPasses (all : Network) : List Io := smallPass Network.silent :: List.replicate 6 (smallPass all)

theorem smallPasses_fair (all : Network) : ∀ io ∈ smallPass Network.silent :: smallPasses all, Fair all io := by
  intro io hio
  have hor : io = smallPass Network.silent ∨ io = smallPass all := by
    simpa [smallPasses] using hio
  rcases hor with rfl | rfl
  · refine ⟨fun ty hash data h => ?_, rfl, rfl⟩
    cases ty <;> cases h
  · exact ⟨fun _ _ _ h => h, rfl, rfl⟩

/-- a new node -/
def smallLaunch : Node smallEnv := launch smallEnv ⟨∅, none, none⟩ twoBranches.genesis

theorem smallLaunch_reached : smallLaunch.Reached (trusting smallCode) twoBranches := by
  refine ⟨⟨∅, none, none⟩, [], ?_, trivial, rfl⟩
  intro hash bytecode h
  cases (FMap.get_empty hash).symm.trans h

theorem smallLaunch_behind (G : Gap smallEnv twoBranches smallCode) (all : Network) (hlength : G.length = 2)
    (hblock : G.block = mainBlock) : smallLaunch.engine.Behind G all := by
  refine ⟨by omega, by omega, by rw [hblock]; rfl, fun i hpos hle => ?_, ?_, ?_, fun i hle => ?_, G.buffered_new, rfl,
    rfl⟩
  · rw [hlength] at hle
    rw [hblock]
    rintro ⟨b, hb⟩
    interval_cases i <;> cases hb
  · rw [hblock]
    intro number _ hle
    rw [Nat.le_zero.1 hle]
    exact ⟨_, rfl⟩
  · rw [hblock]
    exact ⟨_, .refl, .refl⟩
  · rw [hlength] at hle
    rw [hblock]
    interval_cases i <;> rfl

/-- six outcomes close the gap -/
theorem catches_up_small :
    smallGap.Closed (Run.run step smallLaunch (.arrive (.forkchoiceUpdated ⟨3, 0, 0⟩ none 1 3) ::
      .poll (smallPass Network.silent) :: (smallPasses smallPeers).map .poll)).engine.tree := by
  have hpeers : smallGap.ServedBy smallPeers := by
    refine ⟨fun i hi => ?_, fun i hi => ?_, fun i _ c hc => ?_⟩
    · have hi : i < 2 := hi
      interval_cases i <;> rfl
    · have hi : i < 2 := hi
      interval_cases i <;> rfl
    · have hcodes : smallGap.codes (i + 1) = {7} := by
        show codeWitness.bytecodeHashes smallCodec = {7}
        decide
      rw [hcodes, Finset.mem_singleton] at hc
      rw [hc]
      exact ⟨⟨[7]⟩, rfl, rfl⟩
  refine (catches_up smallEvmLaws smallEnv_leafLaw hpeers smallLaunch_reached rfl rfl
    (smallLaunch_behind smallGap smallPeers rfl rfl) ⟨rfl, by decide, Or.inl rfl, Or.inl rfl⟩ (fun _ => rfl) none 1 3
    (smallPasses_fair smallPeers) (List.sublist_cons_self _ _) ?_ (by decide)).2
  intro io hio
  rw [List.eq_of_mem_replicate hio]
  rfl

end Small

end Node

end Ress
