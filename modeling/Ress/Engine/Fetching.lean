/-
Fetching one block of a gap.

The node lacks all of the gap, and is fetching block `j + 1`: what is above it is buffered, and `awaited` is what has
been requested and has not arrived yet (`Fetching`). Peers answer when they like and in any order.

- `Fetching.receive`: an outcome brings the block closer to being complete. A witness that names codes which the
  database lacks has them requested.
- `Fetching.insertUnlocked_next`: a complete block whose parent is not stored goes back to the buffer, and its parent is
  requested.
- `Fetching.insertUnlocked_closes`: the lowest block is inserted, and the buffered ones above it follow.
-/
import Ress.Download.Due
import Ress.Tree.GapBuffer

namespace Ress

/-- peers have the blocks of the gap, their witnesses and their codes -/
structure Gap.ServedBy {E : Env} {W : World} {code : B256 → Option Bytecode} (G : Gap E W code) (all : Network) :
    Prop where
  fullBlock : ∀ i < G.length, all.fullBlock (G.block (i + 1)).hash = some (G.block (i + 1))
  witness : ∀ i < G.length, all.witness (G.block (i + 1)).hash = some (G.witness (i + 1))
  bytecode : ∀ i < G.length, ∀ c ∈ G.codes (i + 1), ∃ bytecode, code c = some bytecode ∧ all.bytecode c = some bytecode

/-- the outcomes that the first `j` blocks of the gap take -/
def Gap.cost {E : Env} {W : World} {code : B256 → Option Bytecode} (G : Gap E W code) : ℕ → ℕ
  | 0 => 0
  | j + 1 => G.cost j + (2 + (G.codes (j + 1)).card)

namespace ConsensusEngine

open EngineTree (HoldsTo)
open EngineDownloader (due)

variable {E : Env} {W : World} {code : B256 → Option Bytecode} {G : Gap E W code} {all : Network}
  {e e' : ConsensusEngine E} {j : ℕ} {here : Bool} {missing : Option (Finset B256)} {s : Finset B256}

/-- block `j + 1` is fetched, and all above it is buffered -/
structure Fetching (G : Gap E W code) (j : ℕ) (here : Bool) (missing : Option (Finset B256)) (e : ConsensusEngine E) :
    Prop where
  lt : j < G.length
  fits : G.length ≤ 256
  climbed : G.Climbed 0 e.tree
  clean : ∀ i ≤ G.length, e.tree.invalidHeader (G.block i).hash = none
  buffer : G.Buffered (j + 1) here missing e.tree.blockBuffer
  named : ∀ s, missing = some s → s ⊆ G.codes (j + 1)
  unparked : e.parkedPayload = none

/-- the bytecode of a hash, as peers have it -/
def bytecodeOf (code : B256 → Option Bytecode) (codeHash : B256) : Bytecode := (code codeHash).getD ⟨[]⟩

/-- the outcomes that are still to arrive of a block -/
def awaited (G : Gap E W code) (j : ℕ) (here : Bool) (missing : Option (Finset B256)) : Multiset DownloadData :=
  (if here then 0 else {.fullBlock (G.block (j + 1))}) +
    match missing with
    | none => {.witness (G.block (j + 1)).hash (G.witness (j + 1))}
    | some s => s.val.map fun c => .bytecode c (bytecodeOf code c)

/-- at most so many outcomes are still to arrive of a block -/
def remaining (G : Gap E W code) (j : ℕ) (here : Bool) (missing : Option (Finset B256)) : ℕ :=
  (if here then 0 else 1) +
    match missing with
    | none => 1 + (G.codes (j + 1)).card
    | some s => s.card

/-- the gap does not look at the buffer -/
theorem climbed_congr {t t' : EngineTree E} (h : G.Climbed j t) (hholds : HoldsTo (trusting code) W t')
    (hstate : t'.provider.chainState = t.provider.chainState) (hhead : t'.canonicalHead = t.canonicalHead)
    (htracker : t'.forkchoiceStateTracker = t.forkchoiceStateTracker) : G.Climbed j t' := by
  refine ⟨hholds, ?_, ?_, ?_, ?_, ?_, ?_⟩
  · rw [hstate]
    exact h.stored
  · rw [hstate]
    exact h.witnesses
  · unfold EngineTree.Stored
    rw [hstate]
    exact h.new
  · rw [hstate]
    exact h.answers
  · rw [hstate, hhead]
    exact h.meets
  · unfold EngineTree.isSyncTargetHead
    rw [htracker]
    exact h.syncs

/-! ## What arrives -/

/-- **The block arrives.** -/
theorem Fetching.receive_block (h : Fetching G j false missing e)
    (hdue : due all e.downloader = awaited G j true missing) (sched : StateRoot.Schedule) :
    ∃ e', e.receiveOutcome sched (.fullBlock (G.block (j + 1))) = (.ok {(G.block (j + 1)).hash}, e') ∧
      Fetching G j true missing e' ∧ due all e'.downloader = awaited G j true missing ∧
      e'.tree.provider.database.readError = e.tree.provider.database.readError := by
  have hlt := h.lt
  have hfits : OutcomeFits W e.tree (.fullBlock (G.block (j + 1))) := G.known (j + 1) hlt
  have hholds := receiveOutcome_holdsTo h.climbed.holds sched hfits trivial
  simp only [receiveOutcome, if_pos (G.recovers j hlt)] at hholds ⊢
  refine ⟨_, rfl, ⟨hlt, h.fits, climbed_congr h.climbed hholds.1 rfl rfl rfl, h.clean, ?_, h.named, h.unparked⟩, hdue,
    hholds.2⟩
  exact h.buffer.insertBlock (Nat.succ_pos j) hlt h.fits

/-- **The witness arrives**, and the bytecodes that the database lacks are requested. -/
theorem Fetching.receive_witness (h : Fetching G j here none e) (hserves : G.ServedBy all)
    (hread : e.tree.provider.database.readError = none) (hdue : due all e.downloader = awaited G j here (some ∅))
    (sched : StateRoot.Schedule) :
    ∃ s ⊆ G.codes (j + 1), ∃ e', e.receiveOutcome sched (.witness (G.block (j + 1)).hash (G.witness (j + 1))) =
        (.ok (if s = ∅ then {(G.block (j + 1)).hash} else ∅), e') ∧
      Fetching G j here (some s) e' ∧ due all e'.downloader = awaited G j here (some s) ∧
      e'.tree.provider.database.readError = e.tree.provider.database.readError := by
  have hlt := h.lt
  have hfits : OutcomeFits W e.tree (.witness (G.block (j + 1)).hash (G.witness (j + 1))) := trivial
  have hholds := receiveOutcome_holdsTo h.climbed.holds sched hfits trivial
  have hmissing : e.tree.provider.missingCodeHashes ((G.witness (j + 1)).bytecodeHashes E.codec) =
      .ok ((G.codes (j + 1)).filter fun c => (e.tree.provider.database.bytecodes.get c).isNone) := by
    simp only [RessProvider.missingCodeHashes, RessDatabase.missingCodeHashes, hread]
    rfl
  have hsub : ((G.codes (j + 1)).filter fun c => (e.tree.provider.database.bytecodes.get c).isNone) ⊆ G.codes (j + 1) :=
    Finset.filter_subset _ _
  generalize ((G.codes (j + 1)).filter fun c => (e.tree.provider.database.bytecodes.get c).isNone) = s at hmissing hsub
  have hbuffer := h.buffer.insertWitness hlt s
  simp only [receiveOutcome, hmissing] at hholds ⊢
  refine ⟨s, hsub, ?_⟩
  split_ifs at hholds ⊢ with hempty
  · subst hempty
    exact ⟨_, rfl, ⟨hlt, h.fits, climbed_congr h.climbed hholds.1 rfl rfl rfl, h.clean, hbuffer,
      fun s' hs' => Option.some.inj hs' ▸ hsub, h.unparked⟩, hdue, hholds.2⟩
  · refine ⟨_, rfl, ⟨hlt, h.fits, climbed_congr h.climbed hholds.1 rfl rfl rfl, h.clean, hbuffer,
      fun s' hs' => Option.some.inj hs' ▸ hsub, h.unparked⟩, ?_, hholds.2⟩
    -- no bytecode is in flight yet
    have hnew : ∀ c ∈ sched.order.list s, c ∉ e.downloader.inflightBytecodeRequests := by
      intro c hc hmem
      obtain ⟨bytecode, -, hall⟩ := hserves.bytecode j hlt c (hsub ((sched.order.mem s c).1 hc))
      have hready : all.ready .bytecode c = some (.bytecode c bytecode) := by
        simp only [Network.ready, hall, Option.map_some]
      have hin : .bytecode c bytecode ∈ due all e.downloader := EngineDownloader.mem_due hmem hready
      rw [hdue] at hin
      cases here <;> simp [awaited] at hin
    have hanswers : ∀ c ∈ sched.order.list s, all.bytecode c = some (bytecodeOf code c) := by
      intro c hc
      obtain ⟨bytecode, hcode, hall⟩ := hserves.bytecode j hlt c (hsub ((sched.order.mem s c).1 hc))
      rw [hall, bytecodeOf, hcode]
      rfl
    have hlist : (sched.order.list s : Multiset B256) = s.val := by
      refine (Multiset.Nodup.ext (Multiset.coe_nodup.2 (sched.order.nodup s)) s.nodup).2 fun c => ?_
      rw [Multiset.mem_coe, sched.order.mem, Finset.mem_val]
    simp only [downloadBytecodes]
    rw [EngineDownloader.due_downloadBytecodes (sched.order.nodup s) hnew hanswers, hdue, ← Multiset.map_coe, hlist]
    simp only [awaited, Finset.empty_val, Multiset.map_zero, add_zero]
    exact add_comm _ _

/-- **A bytecode arrives.** -/
theorem Fetching.receive_bytecode (h : Fetching G j here (some s) e) (hserves : G.ServedBy all)
    (hwrite : e.tree.provider.database.writeError = none) {c : B256} (hc : c ∈ s)
    (hdue : due all e.downloader = awaited G j here (some (s.erase c))) (sched : StateRoot.Schedule) :
    ∃ e', e.receiveOutcome sched (.bytecode c (bytecodeOf code c)) =
        (.ok (if s.erase c = ∅ then {(G.block (j + 1)).hash} else ∅), e') ∧
      Fetching G j here (some (s.erase c)) e' ∧ due all e'.downloader = awaited G j here (some (s.erase c)) ∧
      e'.tree.provider.database.readError = e.tree.provider.database.readError := by
  have hlt := h.lt
  obtain ⟨bytecode, hcode, -⟩ := hserves.bytecode j hlt c (h.named s rfl hc)
  have hof : bytecodeOf code c = bytecode := by
    rw [bytecodeOf, hcode]
    rfl
  have hfits : OutcomeFits W e.tree (.bytecode c bytecode) := trivial
  have hholds := receiveOutcome_holdsTo h.climbed.holds sched hfits hcode
  obtain ⟨hbuffer, hunlocked⟩ := h.buffer.onBytecodeReceived hc
  simp only [receiveOutcome, EngineTree.onBytecode, RessProvider.insertBytecode, RessDatabase.insertBytecode, hwrite,
    bind, Except.bind, pure, Except.pure] at hholds ⊢
  rw [hof]
  refine ⟨_, Prod.ext (congrArg Except.ok hunlocked) rfl, ⟨hlt, h.fits, climbed_congr h.climbed hholds.1 rfl rfl rfl,
    h.clean, hbuffer, fun s' hs' => ?_, h.unparked⟩, hdue, rfl⟩
  rw [← Option.some.inj hs']
  exact (Finset.erase_subset c s).trans (h.named s rfl)

/-- the hash that an outcome unlocks, if any, is that of the block; the last one does unlock it -/
def Unlocks (G : Gap E W code) (j : ℕ) (here : Bool) (missing : Option (Finset B256)) (unlocked : Finset B256) : Prop :=
  (unlocked = ∅ ∨ unlocked = {(G.block (j + 1)).hash}) ∧
    (here = true → missing = some ∅ → unlocked = {(G.block (j + 1)).hash})

theorem unlocks_last {s : Finset B256} :
    Unlocks G j here (some s) (if s = ∅ then {(G.block (j + 1)).hash} else ∅) := by
  by_cases hs : s = ∅
  · rw [if_pos hs]
    exact ⟨Or.inr rfl, fun _ _ => rfl⟩
  · rw [if_neg hs]
    exact ⟨Or.inl rfl, fun _ heq => absurd (Option.some.inj heq) hs⟩

/-- **An outcome that is awaited** leaves less to wait for. -/
theorem Fetching.receive (h : Fetching G j here missing e) (hserves : G.ServedBy all)
    (hread : e.tree.provider.database.readError = none) (hwrite : e.tree.provider.database.writeError = none)
    {data : DownloadData} (hdue : awaited G j here missing = data ::ₘ due all e.downloader)
    (sched : StateRoot.Schedule) :
    ∃ here' missing' unlocked e', e.receiveOutcome sched data = (.ok unlocked, e') ∧
      Fetching G j here' missing' e' ∧ due all e'.downloader = awaited G j here' missing' ∧
      e'.tree.provider.database.readError = e.tree.provider.database.readError ∧
      remaining G j here' missing' < remaining G j here missing ∧ Unlocks G j here' missing' unlocked := by
  have hmem : data ∈ awaited G j here missing := by
    rw [hdue]
    exact Multiset.mem_cons_self _ _
  rcases Multiset.mem_add.1 hmem with hblock | hrest
  · cases here with
    | true => exact absurd hblock (Multiset.notMem_zero _)
    | false =>
      cases Multiset.mem_singleton.1 hblock
      have hleft : due all e.downloader = awaited G j true missing := by
        have hsplit : awaited G j false missing = .fullBlock (G.block (j + 1)) ::ₘ awaited G j true missing := by
          simp only [awaited, Bool.false_eq_true, if_false, if_true, zero_add, Multiset.singleton_add]
        exact (Multiset.cons_inj_right _).1 (hdue.symm.trans hsplit)
      obtain ⟨e', hreceive, hfetching, hdue', hread'⟩ := h.receive_block hleft sched
      refine ⟨true, missing, _, e', hreceive, hfetching, hdue', hread', ?_, Or.inr rfl, fun _ _ => rfl⟩
      simp only [remaining, if_true, Bool.false_eq_true, if_false]
      omega
  · cases missing with
    | none =>
      cases Multiset.mem_singleton.1 hrest
      have hleft : due all e.downloader = awaited G j here (some ∅) := by
        have hsplit : awaited G j here none =
            .witness (G.block (j + 1)).hash (G.witness (j + 1)) ::ₘ awaited G j here (some ∅) := by
          simp only [awaited, Finset.empty_val, Multiset.map_zero, add_zero, ← Multiset.singleton_add]
          exact add_comm _ _
        exact (Multiset.cons_inj_right _).1 (hdue.symm.trans hsplit)
      obtain ⟨s, hsub, e', hreceive, hfetching, hdue', hread'⟩ := h.receive_witness hserves hread hleft sched
      refine ⟨here, some s, _, e', hreceive, hfetching, hdue', hread', ?_, unlocks_last⟩
      have hcard := Finset.card_le_card hsub
      simp only [remaining]
      omega
    | some s =>
      obtain ⟨c, hc, rfl⟩ := Multiset.mem_map.1 hrest
      have hc : c ∈ s := hc
      have hleft : due all e.downloader = awaited G j here (some (s.erase c)) := by
        have hsplit : awaited G j here (some s) =
            .bytecode c (bytecodeOf code c) ::ₘ awaited G j here (some (s.erase c)) := by
          have hval : s.val = c ::ₘ (s.erase c).val := by
            rw [Finset.erase_val]
            exact (Multiset.cons_erase hc).symm
          simp only [awaited, hval, Multiset.map_cons, Multiset.add_cons]
        exact (Multiset.cons_inj_right _).1 (hdue.symm.trans hsplit)
      obtain ⟨e', hreceive, hfetching, hdue', hread'⟩ := h.receive_bytecode hserves hwrite hc hleft sched
      refine ⟨here, some (s.erase c), _, e', hreceive, hfetching, hdue', hread', ?_, unlocks_last⟩
      have hcard := Finset.card_erase_lt_of_mem hc
      simp only [remaining]
      omega

/-- a block and its witness are requested while nothing else is due -/
theorem due_request (hserves : G.ServedBy all) (hj : j < G.length) {d : EngineDownloader} (hdue : due all d = 0) :
    due all ((d.downloadFullBlock (G.block (j + 1)).hash).downloadWitness (G.block (j + 1)).hash) =
      awaited G j false none := by
  have hnone : ∀ ty hash data, all.ready ty hash = some data → hash ∉ d.inflight ty := by
    intro ty hash data hready hmem
    have hin := EngineDownloader.mem_due hmem hready
    rw [hdue] at hin
    exact absurd hin (Multiset.notMem_zero _)
  have hblock := hserves.fullBlock j hj
  have hwitness := hserves.witness j hj
  have hready : all.ready .fullBlock (G.block (j + 1)).hash = some (.fullBlock (G.block (j + 1))) := by
    simp only [Network.ready, hblock, Option.map_some]
  have hready' : all.ready .witness (G.block (j + 1)).hash =
      some (.witness (G.block (j + 1)).hash (G.witness (j + 1))) := by
    simp only [Network.ready, hwitness, Option.map_some]
  have hnewBlock : (G.block (j + 1)).hash ∉ d.inflightFullBlockRequests :=
    hnone .fullBlock _ _ hready
  have hnewWitness : (G.block (j + 1)).hash ∉ (d.downloadFullBlock (G.block (j + 1)).hash).inflightWitnessRequests :=
    hnone .witness _ _ hready'
  rw [EngineDownloader.due_downloadWitness hnewWitness hwitness, EngineDownloader.due_downloadFullBlock hnewBlock hblock,
    hdue, ← Multiset.singleton_add]
  exact add_comm _ _

/-! ## A complete block -/

/-- no block of the gap is found in the invalid header cache -/
theorem Fetching.lookup (h : Fetching G j here missing e) {t : EngineTree E}
    (hcache : t.invalidHeaders = e.tree.invalidHeaders) {i : ℕ} (hi : i ≤ G.length) :
    t.lookupInvalid (G.block i).hash = none := by
  unfold EngineTree.lookupInvalid
  rw [hcache]
  cases hget : (E.cache.get e.tree.invalidHeaders (G.block i).hash).1 with
  | none => rfl
  | some x => cases (h.clean i hi).symm.trans (E.cache.get_entry _ _ _ hget)

/-- a lookup enters nothing into the cache -/
theorem clean_lookup {cache : E.cache.Cache} {hash : B256} (h : (E.cache.entries cache).get hash = none)
    (check : B256) : (E.cache.entries (E.cache.get cache check).2).get hash = none := by
  cases hget : (E.cache.entries (E.cache.get cache check).2).get hash with
  | none => rfl
  | some x => cases h.symm.trans (E.cache.get_forgets _ _ _ _ hget)

/-- an incomplete block is left alone -/
theorem Fetching.insertUnlocked_incomplete (h : Fetching G j here missing e)
    (hnot : ¬ (here = true ∧ missing = some ∅)) (sched : StateRoot.Schedule) :
    Fetching G j here missing (e.insertUnlocked sched (G.block (j + 1)).hash) ∧
      (e.insertUnlocked sched (G.block (j + 1)).hash).downloader = e.downloader := by
  obtain ⟨hnone, hbuffer⟩ := h.buffer.removeBlock_incomplete h.lt hnot
  have hshrinks := (BlockBuffer.removeBlock_removes e.tree.blockBuffer (G.block (j + 1)).hash).toShrinks
  have hremoved : e.tree.blockBuffer.removeBlock (G.block (j + 1)).hash =
      (none, (e.tree.blockBuffer.removeBlock (G.block (j + 1)).hash).2) := Prod.ext hnone rfl
  simp only [insertUnlocked]
  rw [hremoved]
  exact ⟨⟨h.lt, h.fits, climbed_congr h.climbed (h.climbed.holds.shrinks hshrinks) rfl rfl rfl, h.clean, hbuffer,
    h.named, h.unparked⟩, rfl⟩

/-- **A complete block** is taken out of the buffer and passes the check for invalid ancestors. -/
theorem Fetching.taken (h : Fetching G j true (some ∅) e) :
    ∃ buffer, e.tree.blockBuffer.removeBlock (G.block (j + 1)).hash =
        (some (G.block (j + 1), G.witness (j + 1)), buffer) ∧
      G.Buffered (j + 1) false none buffer ∧ BlockBuffer.Shrinks e.tree.blockBuffer buffer ∧
      (e.tree.withBuffer buffer).lowestBufferedAncestorOr (G.block (j + 1)).hash = (G.block (j + 1)).hash ∧
      (e.tree.withBuffer buffer).lookupInvalid (G.block (j + 1)).hash = none := by
  obtain ⟨htaken, hbuffer⟩ := h.buffer.removeBlock_complete h.lt
  have hnone := hbuffer.notBuffered (Or.inr ⟨rfl, rfl⟩) h.lt
  refine ⟨_, Prod.ext htaken rfl, hbuffer,
    (BlockBuffer.removeBlock_removes e.tree.blockBuffer (G.block (j + 1)).hash).toShrinks, ?_, h.lookup rfl h.lt⟩
  simp only [EngineTree.lowestBufferedAncestorOr, EngineTree.withBuffer, BlockBuffer.lowestAncestor, hnone,
    Option.map_none, Option.getD_none]

/-- **A complete block whose parent is not stored** goes back, and its parent is requested. -/
theorem Fetching.insertUnlocked_next (h : Fetching G (j + 1) true (some ∅) e) (hserves : G.ServedBy all)
    (hread : e.tree.provider.database.readError = none) (hdue : due all e.downloader = 0) (sched : StateRoot.Schedule) :
    Fetching G j false none (e.insertUnlocked sched (G.block (j + 1 + 1)).hash) ∧
      due all (e.insertUnlocked sched (G.block (j + 1 + 1)).hash).downloader = awaited G j false none := by
  have hlt := h.lt
  have hholds := (insertUnlocked_holdsTo (trusting_upholds code W) h.climbed.holds hread sched
    (G.block (j + 1 + 1)).hash).1
  obtain ⟨hp, -⟩ := G.parent (i := j + 1) hlt
  obtain ⟨buffer, hremoved, hbuffer, -, hcheck, hlookup⟩ := h.taken
  obtain ⟨t, hinsert, htbuffer, hprovider, hhead, htracker, hcache⟩ := EngineTree.insertBlock_disconnected
    (t := (e.tree.withBuffer buffer).afterLookup (G.block (j + 1 + 1)).hash) sched (h.climbed.new _ (by omega) hlt)
    (Knowledge.judge_ok (G.valid (j + 1) hlt sched)).1 (by rw [hp]; exact h.climbed.new (j + 1) (by omega) (by omega))
    (by rw [hp]; exact hbuffer.notBuffered (Or.inl (by omega)) hlt) (G.witness (j + 1 + 1))
  have hdownloaded : (e.tree.withBuffer buffer).onDownloadedBlock sched (G.block (j + 1 + 1)) (G.witness (j + 1 + 1)) =
      (.ok ⟨⟨.syncing, none⟩, some (TreeEvent.downloadBlock (G.block (j + 1)).hash)⟩, t) := by
    simp only [EngineTree.onDownloadedBlock, hcheck, EngineTree.checkInvalid_notFound _ hlookup, hinsert]
    rw [← hp]
    rfl
  have hnext : G.Buffered (j + 1) false none t.blockBuffer := by
    have hback := (hbuffer.insertWitness hlt ∅).insertBlock (Nat.succ_pos _) hlt h.fits
    rw [htbuffer]
    exact hback.shift
  have hunlocked : e.insertUnlocked sched (G.block (j + 1 + 1)).hash =
      { e with
        tree := t
        downloader :=
          (e.downloader.downloadFullBlock (G.block (j + 1)).hash).downloadWitness (G.block (j + 1)).hash } := by
    have hwitness : t.blockBuffer.witnesses.get (G.block (j + 1)).hash = none := hnext.own
    simp only [insertUnlocked]
    rw [hremoved]
    simp only [hdownloaded, Except.toOption, Option.bind_some, onMaybeTreeEvent, TreeEvent.downloadBlock, onTreeEvent,
      hwitness, if_true, releaseParked, h.unparked]
  rw [hunlocked] at hholds ⊢
  refine ⟨⟨by omega, h.fits, climbed_congr h.climbed hholds ?_ hhead htracker, fun i hi => ?_, hnext, ?_, h.unparked⟩,
    ?_⟩
  · exact congrArg (fun p : RessProvider => p.chainState) hprovider
  · unfold EngineTree.invalidHeader
    rw [hcache]
    exact clean_lookup (h.clean i hi) _
  · intro s hs
    cases hs
  · exact due_request hserves (by omega) hdue

/-- **The lowest block** is valid, the buffered ones above it follow, and the sync target becomes the head. -/
theorem Fetching.insertUnlocked_closes (laws : EvmLaws E) (hleaf : LeafLaw E) (h : Fetching G 0 true (some ∅) e)
    (hread : e.tree.provider.database.readError = none) (sched : StateRoot.Schedule) :
    G.Closed (e.insertUnlocked sched (G.block 1).hash).tree ∧
      (e.insertUnlocked sched (G.block 1).hash).downloader = e.downloader ∧
      (e.insertUnlocked sched (G.block 1).hash).parkedPayload = none := by
  have hlt := h.lt
  -- the codes of complete blocks are there
  have hcodes : ∀ i, 0 < i → i ≤ G.length → G.codes i ⊆ e.tree.codes := by
    intro i hpos hle
    have hmissing : e.tree.blockBuffer.missing (G.block i).hash = ∅ := by
      rw [h.buffer.missing_eq]
      split_ifs <;> rfl
    rcases Nat.eq_or_lt_of_le (Nat.succ_le_of_lt hpos) with rfl | habove
    · exact h.climbed.holds.available.buffered.ready h.buffer.own hmissing
    · exact h.climbed.holds.available.buffered.ready (h.buffer.above i habove hle) hmissing
  obtain ⟨buffer, hremoved, hbuffer, hshrinks, hcheck, hlookup⟩ := h.taken
  have hholds := (h.climbed.holds.shrinks hshrinks)
  have hcalls := HoldsTo.calls (E := E) (trusting_upholds code W) hread
  have hclimbed : G.Climbed 0 ((e.tree.withBuffer buffer).afterLookup (G.block 1).hash) :=
    climbed_congr h.climbed (hcalls.cache ⟨hholds, rfl⟩).1 rfl rfl rfl
  obtain ⟨t₁, hinsert, hclimbed₁, hdatabase, hbuffer₁⟩ :=
    hclimbed.insertBlock laws hleaf hlt hread (hcodes 1 (by omega) hlt) sched
  have hbuffered : G.Buffered 1 false none t₁.blockBuffer := by
    rw [hbuffer₁]
    exact hbuffer
  have htaken := BlockBuffer.removeBlockWithChildren_taken sched.order t₁.blockBuffer (G.block 1).hash hbuffered.keyed
  have htakes : BlockBuffer.removeBlockWithChildren sched.order t₁.blockBuffer (G.block 1).hash =
      ((List.range' 2 (G.length - 1)).map G.pair,
        (BlockBuffer.removeBlockWithChildren sched.order t₁.blockBuffer (G.block 1).hash).2) :=
    Prod.ext (hbuffered.takes hlt sched.order) rfl
  generalize (BlockBuffer.removeBlockWithChildren sched.order t₁.blockBuffer (G.block 1).hash).2 = rest at htaken htakes
  have hclimbed₂ : G.Climbed 1 (t₁.withBuffer rest) :=
    climbed_congr hclimbed₁ (hclimbed₁.holds.shrinks htaken.toShrinks) rfl rfl rfl
  obtain ⟨t₂, event, hdownloaded, hclosed⟩ : ∃ t₂ event, (e.tree.withBuffer buffer).onDownloadedBlock sched (G.block 1)
        (G.witness 1) = (.ok ⟨⟨.valid, some (G.block 1).hash⟩, event⟩, t₂) ∧
      (event = none ∧ G.Closed t₂ ∨
        event = some (TreeEvent.makeCanonical G.target) ∧ G.Closed (t₂.makeCanonical G.target)) := by
    simp only [EngineTree.onDownloadedBlock, hcheck, EngineTree.checkInvalid_notFound _ hlookup, hinsert,
      EngineTree.tryConnectBufferedBlocks, htakes]
    obtain ⟨n, hn⟩ : ∃ n, G.length = n + 1 := ⟨G.length - 1, by omega⟩
    cases n with
    | zero =>
      -- the block is the sync target itself
      have htarget : (G.block 1).hash = G.target := by
        unfold Gap.target
        rw [hn]
      rw [hn, List.range'_zero, List.map_nil]
      refine ⟨_, _, rfl, Or.inr ⟨?_, ?_⟩⟩
      · rw [if_pos ((hclimbed₁.syncs _).2 htarget), htarget]
      · exact Gap.Climbed.makeCanonical (by rw [hn]; exact hclimbed₂) (by omega)
    | succ n =>
      have hnot : ¬ t₁.isSyncTargetHead (G.block 1).hash = true := by
        intro hsync
        have := G.hash_inj (by omega) le_rfl ((hclimbed₁.syncs _).1 hsync)
        omega
      have hcodes₂ : ∀ i, 1 < i → i ≤ G.length → G.codes i ⊆ (t₁.withBuffer rest).codes := by
        intro i hlow hle
        have hsame : (t₁.withBuffer rest).codes = e.tree.codes :=
          congrArg (fun db : RessDatabase => db.bytecodes.keys) hdatabase
        rw [hsame]
        exact hcodes i (by omega) hle
      have hread₂ : (t₁.withBuffer rest).provider.database.readError = none :=
        (congrArg (fun db : RessDatabase => db.readError) hdatabase).trans hread
      obtain ⟨t₂, hconnect, hclosed⟩ := hclimbed₂.connectBlocks (n := n) laws hleaf (by omega) hread₂ hcodes₂ sched
      have hlist : G.length - 1 = n + 1 := by omega
      have hconnect' : EngineTree.connectBlocks sched ((List.range' 2 (G.length - 1)).map G.pair)
          (t₁.withBuffer rest) = (.ok (), t₂) := by
        rw [hlist]
        exact hconnect
      simp only [EngineTree.withBuffer] at hconnect'
      simp only [hconnect', if_neg hnot]
      exact ⟨_, _, rfl, Or.inl ⟨rfl, hclosed⟩⟩
  simp only [insertUnlocked]
  rw [hremoved]
  rcases hclosed with ⟨rfl, hclosed⟩ | ⟨rfl, hclosed⟩
  · simp only [hdownloaded, Except.toOption, Option.bind_some, onMaybeTreeEvent, releaseParked, h.unparked]
    exact ⟨hclosed, trivial, trivial⟩
  · simp only [hdownloaded, Except.toOption, Option.bind_some, onMaybeTreeEvent, TreeEvent.makeCanonical, onTreeEvent,
      releaseParked, h.unparked]
    exact ⟨hclosed, trivial, trivial⟩

end ConsensusEngine

end Ress
