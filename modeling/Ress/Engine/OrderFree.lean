/-
The order in which unlocked blocks are inserted.

A bytecode or a witness may unlock several blocks at once. They are inserted in the order in which a hash set is
iterated, and each is followed by its descendants in the buffer, in the order of the sets of children. A block that has
its turn before its parent goes back to the buffer, and is taken again when the parent is connected.

- `onDownloadOutcome_same`: all orders end with the same blocks validated, the same head and the same answer to the
  parked payload, if no insertion is fatal and no unlocked block that can be inserted, or that the parked payload waits
  for, is recorded as invalid (`OrderFree`).
- `sharedRun_order_decides`: a recorded block is rejected on its own turn, but not when it is connected after its
  parent. There the order decides whether it is validated.
-/
import Ress.Engine.ParkedPath
import Ress.Tree.InFlight

namespace Ress

namespace EngineTree

variable {E : Env} {t t' : EngineTree E} {sched : StateRoot.Schedule} {W : World} {t₀ : EngineTree E}

/-! ## The end of the loop -/

/-- **Every block that can be inserted has been**, once no ready block waits for a parent that is stored. -/
theorem Underway.complete {parked : Option B256} (u : Underway W sched t₀ parked [] [] false t)
    (hsound : Chain.Sound W t₀.chain) (hbuffer : t₀.blockBuffer.Known W) (hd : Drained W ∅ t) {s : EngineTree E}
    (hext : Extends sched t₀ s) {k : B256} (hk : s.Stored k) : t.Stored k := by
  induction hext generalizing k with
  | start => exact u.grown.stored hk
  | @insert s x hext hx hv ih =>
    rcases (insertBlock_inserts s sched x.1 (some x.2)).storedHashes_sub.2 hk with rfl | hold
    · obtain ⟨w, -, hnew, -, parent, hparent, -⟩ := insertBlock_valid hv
      have hp : s.Stored x.1.parentHash := ChainState.sealedHeader_isSome.1 (by
        rw [show s.provider.chainState.sealedHeader x.1.parentHash = some parent from hparent]
        rfl)
      have hins : Insertable sched t₀ x.1.hash :=
        ⟨fun h => hnew ((hext.grown hsound hbuffer).stored h), _, Extends.insert hext hx hv, hk⟩
      rcases u.kept x hx hins with hs | hs | hs
      · exact hs
      · -- it would be a ready block whose parent is stored
        have hback := hs.holds hx
        have hready : t.blockBuffer.Ready x.1.hash := ⟨⟨_, hback.witness⟩, hback.complete⟩
        exact absurd (ih hp) (hd.buffer _ _ hback.block hready (Set.notMem_empty _)).2
      · cases hs
    · exact ih hold

/-- so the store ends with the blocks that it had and those that can be inserted -/
theorem Underway.stored_iff {parked : Option B256} (u : Underway W sched t₀ parked [] [] false t)
    (hsound : Chain.Sound W t₀.chain) (hbuffer : t₀.blockBuffer.Known W) (hd : Drained W ∅ t) (k : B256) :
    t.Stored k ↔ t₀.Stored k ∨ Insertable sched t₀ k := by
  constructor
  · rintro ⟨b, hb⟩
    exact (u.grown.new k b hb).imp (fun hold => ⟨b, hold⟩) And.left
  · rintro (hold | ⟨-, s, hext, hs⟩)
    · exact u.grown.stored hold
    · exact u.complete hsound hbuffer hd hext hs

/-- **One canonical head.** Two ways through the loop that end with the same store end with the same head. -/
theorem Underway.sameHead {parked : Option B256} (u : Underway W sched t₀ parked [] [] false t)
    (u' : Underway W sched t₀ parked [] [] false t') (habove : NoneAbove W sched t₀)
    (hhead : t₀.Stored t₀.canonicalHead.hash) (hsame : t'.storedHashes = t.storedHashes) :
    t'.canonicalHead = t.canonicalHead := by
  have hboth := u.head
  have hboth' := u'.head
  cases hboth with
  | before hh hnone =>
    cases hboth' with
    | before hh' _ => exact hh'.trans hh.symm
    | after htarget hnew hs => exact absurd (hnone _ htarget (hsame.subset hs)) hnew
  | @after h s htarget hnew hs g hmade hbefore hh =>
    cases hboth' with
    | before hh' hnone' => exact absurd (hnone' _ htarget (hsame.symm.subset hs)) hnew
    | @after h' s' htarget' hnew' hs' g' hmade' hbefore' hh' =>
      cases isSyncTargetHead_unique htarget htarget'
      rw [hh, hh']
      exact g.makeCanonical_head g' habove (hbefore'.trans hbefore.symm) (by rw [hbefore]; exact hhead) hnew hmade hmade'

end EngineTree

namespace BlockBuffer

theorem Holds.removable {β : BlockBuffer} {x : Block × ExecutionWitness} (h : β.Holds x) : β.Removable x.1.hash :=
  ⟨⟨_, h.block⟩, ⟨_, h.witness⟩, h.complete⟩

end BlockBuffer

namespace ConsensusEngine

open BlockBuffer (Aged Frees Holds SameAt)
open EngineTree (Announced Connected Drained Grown HeadStage Insertable NoFatalSince NoneAbove NotFatal ProviderFatal
  Underway announced insertions_keeps lookupInvalid_none statusOf)
open StateRoot (StorageTrieMap)

variable {E : Env} {W : World} {e e' e₀ : ConsensusEngine E} {sched sched' : StateRoot.Schedule} {rest : List B256}
  {tried unlocked : Set B256} {h : B256}

/-! ## The parked payload -/

/-- the block that the parked payload waits for -/
def parkedHash (e : ConsensusEngine E) : Option B256 := e.parkedPayload.map fun parked => parked.blockHash

/-- the parked payload once the hashes of `tried` have been tried: it waits, or its block was taken out of the buffer,
and the result of the insertion is the answer -/
inductive Replies (sched : StateRoot.Schedule) (e₀ : ConsensusEngine E) (tried : Set B256) (e : ConsensusEngine E) : Prop
  | waits (hnot : ∀ k ∈ tried, e₀.parkedHash = some k → ¬ e₀.tree.blockBuffer.Removable k)
      (hparked : e.parkedPayload = e₀.parkedPayload) (hresponses : e.responses = e₀.responses) :
      Replies sched e₀ tried e
  | answered {parked : ParkedPayload} {x : Block × ExecutionWitness} (hp : e₀.parkedPayload = some parked)
      (htried : parked.blockHash ∈ tried) (hx : e₀.tree.blockBuffer.Holds x) (hhash : x.1.hash = parked.blockHash)
      (hparked : e.parkedPayload = none)
      (hresponses : e.responses = e₀.responses ++
        [(parked.tx, .payload (statusOf E x.1 (e₀.tree.insertBlock sched x.1 (some x.2)).1))]) :
      Replies sched e₀ tried e

theorem parkedHash_some {parked : ParkedPayload} (hp : e.parkedPayload = some parked) :
    e.parkedHash = some parked.blockHash := by
  simp only [parkedHash, hp, Option.map_some]

/-- two ways through the loop give the same answers -/
theorem Replies.same (r : Replies sched e₀ tried e) (r' : Replies sched e₀ tried e') :
    e'.parkedPayload = e.parkedPayload ∧ e'.responses = e.responses := by
  have hnever : ∀ {parked : ParkedPayload} {x : Block × ExecutionWitness}, e₀.parkedPayload = some parked →
      parked.blockHash ∈ tried → e₀.tree.blockBuffer.Holds x → x.1.hash = parked.blockHash →
      ¬ ∀ k ∈ tried, e₀.parkedHash = some k → ¬ e₀.tree.blockBuffer.Removable k := by
    intro parked x hp htried hx hhash hnot
    exact hnot _ htried (parkedHash_some hp) (hhash ▸ hx.removable)
  cases r with
  | waits hnot hparked hresponses =>
    cases r' with
    | waits _ hparked' hresponses' => exact ⟨hparked'.trans hparked.symm, hresponses'.trans hresponses.symm⟩
    | answered hp htried hx hhash => exact absurd hnot (hnever hp htried hx hhash)
  | answered hp htried hx hhash hparked hresponses =>
    cases r' with
    | waits hnot => exact absurd hnot (hnever hp htried hx hhash)
    | answered hp' htried' hx' hhash' hparked' hresponses' =>
      cases hp.symm.trans hp'
      cases hx.unique hx' (hhash.trans hhash'.symm)
      exact ⟨hparked'.trans hparked.symm, hresponses'.trans hresponses.symm⟩

theorem Replies.congr (r : Replies sched e₀ tried e) (hparked : e'.parkedPayload = e.parkedPayload)
    (hresponses : e'.responses = e.responses) : Replies sched e₀ tried e' := by
  cases r with
  | waits hwait hparked₀ hresponses₀ => exact .waits hwait (hparked.trans hparked₀) (hresponses.trans hresponses₀)
  | answered hp htried hx hhash hparked₀ hresponses₀ =>
    exact .answered hp htried hx hhash (hparked.trans hparked₀) (hresponses.trans hresponses₀)

/-- a hash is tried that the parked payload does not wait for, or whose block is not ready -/
theorem Replies.skips (r : Replies sched e₀ tried e)
    (hnot : e₀.parkedHash = some h → ¬ e₀.tree.blockBuffer.Removable h) : Replies sched e₀ (insert h tried) e := by
  cases r with
  | waits hwait hparked hresponses =>
    refine .waits ?_ hparked hresponses
    intro k hk hp
    rcases Set.mem_insert_iff.1 hk with rfl | hk
    · exact hnot hp
    · exact hwait k hk hp
  | answered hp htried hx hhash hparked hresponses =>
    exact .answered hp (Set.mem_insert_of_mem _ htried) hx hhash hparked hresponses

theorem releaseParked_other (hp : ∀ parked, e.parkedPayload = some parked → parked.blockHash ≠ h)
    (result : Except InsertBlockFatalError PayloadStatus) : e.releaseParked h result = e := by
  unfold releaseParked
  cases hparked : e.parkedPayload with
  | none => rfl
  | some parked => simp only [if_neg (hp parked hparked)]

/-- **A block on its own turn** answers the payload that waits for it. -/
theorem Replies.releases (r : Replies sched e₀ tried e) {x : Block × ExecutionWitness} (htried : x.1.hash ∉ tried)
    (hx : e₀.tree.blockBuffer.Holds x) {result : Except InsertBlockFatalError PayloadStatus}
    (hresult : e₀.parkedHash = some x.1.hash →
      result = statusOf E x.1 (e₀.tree.insertBlock sched x.1 (some x.2)).1) :
    Replies sched e₀ (insert x.1.hash tried) (e.releaseParked x.1.hash result) := by
  by_cases hp : e₀.parkedHash = some x.1.hash
  · obtain ⟨parked, hp₀, hph⟩ := Option.map_eq_some_iff.1 hp
    cases r with
    | waits _ hparked hresponses =>
      have hsome : e.parkedPayload = some parked := hparked.trans hp₀
      refine .answered hp₀ (hph ▸ Set.mem_insert _ _) hx hph.symm ?_ ?_
      · simp only [releaseParked, hsome, if_pos hph]
        rfl
      · simp only [releaseParked, hsome, if_pos hph, send, hresponses, hresult hp]
    | answered hp₁ htried₁ =>
      cases hp₀.symm.trans hp₁
      exact absurd (hph ▸ htried₁) htried
  · have hother : ∀ parked, e.parkedPayload = some parked → parked.blockHash ≠ x.1.hash := by
      intro parked hsome heq
      cases r with
      | waits _ hparked => exact hp (heq ▸ parkedHash_some (hparked.symm.trans hsome))
      | answered _ _ _ _ hnone => cases hnone.symm.trans hsome
    rw [releaseParked_other hother]
    exact r.skips fun hp' => absurd hp' hp

/-- **The event of a block on its own turn** makes the sync target canonical if it is due. -/
theorem announced_underway {t₀ : EngineTree E} {parked : Option B256} {due : Bool} {event : Option TreeEvent}
    (u : Underway W sched t₀ parked rest [] due e.tree) (ha : Announced t₀ due event) :
    Underway W sched t₀ parked rest [] false (e.onMaybeTreeEvent event).tree := by
  cases due with
  | true =>
    obtain ⟨k, rfl, hk⟩ := ha.makes rfl
    exact u.makeCanonical hk
  | false =>
    cases event with
    | none => exact u
    | some event =>
      cases event with
      | treeAction action =>
        obtain ⟨target⟩ := action
        exact absurd rfl (ha.quiet rfl target)
      | download request => cases request <;> exact u

section Tried

variable (hsound : Chain.Sound W e₀.tree.chain) (hbuffer : e₀.tree.blockBuffer.Known W)
  (habove : NoneAbove W sched e₀.tree) (hmap : StorageTrieMap E) (hprovider : ProviderFatal E)

include hsound hbuffer habove hmap hprovider

/-- **One unlocked hash.** -/
theorem insertUnlocked_underway (u : Underway W sched e₀.tree e₀.parkedHash (h :: rest) [] false e.tree)
    (r : Replies sched e₀ tried e) (hrest : h ∉ rest) (htried : h ∉ tried)
    (hconnected : Connected e₀.tree e₀.parkedHash (h :: rest))
    (hfatal : NoFatalSince e₀.tree (e.insertUnlocked sched' h).tree) :
    Underway W sched e₀.tree e₀.parkedHash rest [] false (e.insertUnlocked sched' h).tree ∧
      Replies sched e₀ (insert h tried) (e.insertUnlocked sched' h) := by
  have hmore : Connected e₀.tree e₀.parkedHash rest := fun k hk => hconnected k (List.mem_cons_of_mem _ hk)
  have hremoves := u.removes hrest
  have hcases := BlockBuffer.removeBlock_cases e.tree.blockBuffer h
  have hself := BlockBuffer.removeBlock_taken u.wf.buffer.keyed h
  unfold insertUnlocked at hfatal ⊢
  cases hr : e.tree.blockBuffer.removeBlock h with
  | mk taken buffer =>
    rw [hr] at hcases hremoves hfatal hself
    cases taken with
    | none =>
      refine ⟨hremoves, (r.skips fun hp hready => ?_).congr rfl rfl⟩
      obtain ⟨hsame, -⟩ := u.waits h List.mem_cons_self hp
      rcases hcases with ⟨hnot, -⟩ | ⟨b, w, -, -, -, hsome, -⟩
      · obtain ⟨⟨b, hb⟩, hw⟩ := hready
        exact hnot ⟨⟨b, hsame.block.trans hb⟩, hsame.ready.2 hw⟩
      · cases hsome
    | some x =>
      obtain ⟨block, witness⟩ := x
      have hhash : block.hash = h := hself.2.2 (block, witness) (List.mem_singleton_self _)
      subst hhash
      have hx : e₀.tree.blockBuffer.Holds (block, witness) := hremoves.holds _ (List.mem_singleton_self _)
      have hclear : e₀.parkedHash = some block.hash ∨ EngineTree.Insertable sched e₀.tree block.hash →
          (e.tree.withBuffer buffer).invalidHeader block.hash = none := fun hc =>
        u.clear block.hash List.mem_cons_self hc.symm
      change Underway W sched e₀.tree e₀.parkedHash rest [(block, witness)] false (e.tree.withBuffer buffer) at hremoves
      simp only [releaseParked_tree] at hfatal ⊢
      have hdownload := hremoves.onDownloadedBlock sched' hsound hbuffer habove hmap hmore hrest fun hins =>
        hclear (Or.inr hins)
      have hlast : NoFatalSince e₀.tree ((e.tree.withBuffer buffer).onDownloadedBlock sched' block witness).2 →
          (e.tree.withBuffer buffer).invalidHeader block.hash = none →
            NotFatal E ((e.tree.withBuffer buffer).insertBlock sched' block (some witness)).1 := fun hno hnone =>
        hno.onDownloadedBlock hremoves.calls (hremoves.lowest.symm ▸ lookupInvalid_none hnone)
      generalize (e.tree.withBuffer buffer).onDownloadedBlock sched' block witness = result at hdownload hlast hfatal ⊢
      have hfollows := onMaybeTreeEvent_follows { e with tree := result.2 } (announced result.1)
      have hquiet := onMaybeTreeEvent_quiet { e with tree := result.2 } (announced result.1)
      have hcalls : result.2.insertions <+: ({ e with tree := result.2 }.onMaybeTreeEvent
          (announced result.1)).tree.insertions :=
        hfollows.keeps (P := fun t => result.2.insertions <+: t.insertions)
          (fun target => (insertions_keeps result.2.insertions).makeCanonical target List.prefix_rfl) List.prefix_rfl
      have hnone := hfatal.before hcalls
      obtain ⟨due, u₂, hann, hstatus⟩ := hdownload hnone
      have u₃ := announced_underway (e := { e with tree := result.2 }) u₂ hann
      refine ⟨u₃, ?_⟩
      change Replies sched e₀ _ (({ e with tree := result.2 }.onMaybeTreeEvent (announced result.1)).releaseParked
        block.hash (result.1.map fun outcome : TreeOutcome PayloadStatus => outcome.outcome))
      generalize { e with tree := result.2 }.onMaybeTreeEvent (announced result.1) = e₁ at hquiet ⊢
      refine (r.congr hquiet.parkedPayload hquiet.responses).releases htried hx fun hp => ?_
      obtain ⟨-, hseen, -⟩ := u.waits block.hash List.mem_cons_self hp
      have hparent := hconnected block.hash List.mem_cons_self hp block hx.block
      have hunrecorded := hclear (Or.inl hp)
      rw [hstatus hunrecorded (hremoves.grown.stored hparent), (hlast hnone hunrecorded).same hprovider
        (hremoves.grown.sameResult hsound habove hmap hseen hparent)]

end Tried

/-! ## All unlocked hashes -/

theorem insertUnlocked_calls (e : ConsensusEngine E) (sched : StateRoot.Schedule) (hash : B256) :
    e.tree.insertions <+: (e.insertUnlocked sched hash).tree.insertions := by
  have hkeeps := insertions_keeps (E := E) e.tree.insertions
  rcases insertUnlocked_cases e sched hash with ⟨-, heq⟩ | ⟨b, w, answer, t, -, -, -, hr, hf⟩
  · rw [heq]
    exact List.prefix_rfl
  · have hreceived := hkeeps.receives hr trivial List.prefix_rfl
    exact hf.keeps (P := fun t => e.tree.insertions <+: t.insertions)
      (fun target => hkeeps.makeCanonical target hreceived) hreceived

theorem insertAll_calls (sched : StateRoot.Schedule) (hashes : List B256) (e : ConsensusEngine E) :
    e.tree.insertions <+: (hashes.foldl (fun e hash => e.insertUnlocked sched hash) e).tree.insertions := by
  induction hashes generalizing e with
  | nil => exact List.prefix_rfl
  | cons hash hashes ih => exact (insertUnlocked_calls e sched hash).trans (ih _)

section Tried

variable (hsound : Chain.Sound W e₀.tree.chain) (hbuffer : e₀.tree.blockBuffer.Known W)
  (habove : NoneAbove W sched e₀.tree) (hmap : StorageTrieMap E) (hprovider : ProviderFatal E)

include hsound hbuffer habove hmap hprovider

/-- **The loop over the unlocked hashes** ends with none to be tried. -/
theorem insertAll_underway (hashes : List B256) (u : Underway W sched e₀.tree e₀.parkedHash hashes [] false e.tree)
    (r : Replies sched e₀ tried e) (hnodup : hashes.Nodup) (htried : ∀ k ∈ hashes, k ∉ tried)
    (hconnected : Connected e₀.tree e₀.parkedHash hashes)
    (hfatal : NoFatalSince e₀.tree (hashes.foldl (fun e hash => e.insertUnlocked sched' hash) e).tree) :
    Underway W sched e₀.tree e₀.parkedHash [] [] false
        (hashes.foldl (fun e hash => e.insertUnlocked sched' hash) e).tree ∧
      Replies sched e₀ (tried ∪ {k | k ∈ hashes}) (hashes.foldl (fun e hash => e.insertUnlocked sched' hash) e) := by
  induction hashes generalizing e tried with
  | nil => simpa using ⟨u, r⟩
  | cons h hashes ih =>
    obtain ⟨hh, hnodup⟩ := List.nodup_cons.1 hnodup
    have hbefore := hfatal.before (insertAll_calls sched' hashes (e.insertUnlocked sched' h))
    obtain ⟨u₁, r₁⟩ := insertUnlocked_underway hsound hbuffer habove hmap hprovider u r hh (htried h List.mem_cons_self)
      hconnected hbefore
    have hrest : ∀ k ∈ hashes, k ∉ insert h tried := by
      intro k hk hmem
      rcases Set.mem_insert_iff.1 hmem with rfl | hmem
      · exact hh hk
      · exact htried k (List.mem_cons_of_mem _ hk) hmem
    have hcons : {k | k ∈ h :: hashes} = insert h {k | k ∈ hashes} := by
      ext k
      exact List.mem_cons
    rw [hcons, Set.union_insert, ← Set.insert_union]
    exact ih u₁ r₁ hnodup hrest (fun k hk => hconnected k (List.mem_cons_of_mem _ hk)) hfatal

end Tried

/-- the orders in which unlocked blocks are inserted do not matter: the books are in order, no stored block lies above
one that can be inserted, no block that can be inserted or that the parked payload waits for is recorded as invalid, and
that payload's block has its parent in the store -/
structure OrderFree (W : World) (sched : StateRoot.Schedule) (e : ConsensusEngine E) (unlocked : Set B256) : Prop where
  chain : Chain.Coherent W e.tree.chain
  drained : Drained W unlocked e.tree
  aged : ∃ limit history, Aged limit history Set.univ e.tree.blockBuffer
  above : NoneAbove W sched e.tree
  clear : ∀ h ∈ unlocked, Insertable sched e.tree h ∨ e.parkedHash = some h → e.tree.invalidHeader h = none
  connected : ∀ h ∈ unlocked, e.parkedHash = some h → ∀ b, e.tree.blockBuffer.blocks.get h = some b →
    e.tree.Stored b.parentHash

/-- before the first hash -/
theorem OrderFree.start (h : OrderFree W sched e unlocked) (hashes : List B256) (hmem : ∀ k ∈ hashes, k ∈ unlocked) :
    Underway W sched e.tree e.parkedHash hashes [] false e.tree where
  grown := Grown.start h.chain.toSound
  wf := h.drained.wf
  head := HeadStage.before rfl fun _ _ hs => hs
  calls := List.prefix_rfl
  frees := Frees.rfl' _
  room := by
    obtain ⟨limit, history, haged⟩ := h.aged
    exact ⟨limit, history, haged, haged.bounded⟩
  out := ⟨fun x hx => absurd hx List.not_mem_nil, List.nodup_nil⟩
  holds x hx := absurd hx List.not_mem_nil
  kept x _ _ := Or.inr (Or.inl (SameAt.rfl' x.1.hash _))
  clear k hk hc := h.clear k (hmem k hk) hc
  waits k _ _ := ⟨SameAt.rfl' k _, fun hs => hs, fun x hx => absurd hx List.not_mem_nil⟩

/-- the same blocks are validated, with the same canonical head, and the parked payload gets the same answer -/
structure SameResult (e e' : ConsensusEngine E) : Prop where
  validated : e'.tree.storedHashes = e.tree.storedHashes
  head : e'.tree.canonicalHead = e.tree.canonicalHead
  parked : e'.parkedPayload = e.parkedPayload
  responses : e'.responses = e.responses

theorem insertAllUnlocked_underway {unlocked : Finset B256} (h : OrderFree W sched e {k | k ∈ unlocked})
    (hmap : StorageTrieMap E) (hprovider : ProviderFatal E)
    (hfatal : NoFatalSince e.tree (e.insertAllUnlocked sched' unlocked).tree) :
    Underway W sched e.tree e.parkedHash [] [] false (e.insertAllUnlocked sched' unlocked).tree ∧
      Replies sched e {k | k ∈ unlocked} (e.insertAllUnlocked sched' unlocked) := by
  have hmem : ∀ k ∈ sched'.order.list unlocked, k ∈ {k | k ∈ unlocked} := fun k hk => (sched'.order.mem unlocked k).1 hk
  have hstart : Replies sched e ∅ e := .waits (fun k hk => absurd hk (Set.notMem_empty k)) rfl rfl
  obtain ⟨u, r⟩ := insertAll_underway h.chain.toSound h.drained.wf.buffer h.above hmap hprovider
    (sched'.order.list unlocked)
    (h.start _ hmem) hstart (sched'.order.nodup unlocked) (fun k _ => Set.notMem_empty k)
    (fun k hk => h.connected k (hmem k hk)) hfatal
  have hset : ∅ ∪ {k | k ∈ sched'.order.list unlocked} = {k | k ∈ unlocked} := by
    ext k
    rw [Set.empty_union]
    exact sched'.order.mem unlocked k
  rw [hset] at r
  exact ⟨u, r⟩

/-- **The order of the unlocked hashes** does not matter, nor does that of the descendants that are connected. -/
theorem insertAllUnlocked_same {unlocked : Finset B256} (h : OrderFree W sched e {k | k ∈ unlocked})
    (hmap : StorageTrieMap E) (hprovider : ProviderFatal E)
    (hfatal : NoFatalSince e.tree (e.insertAllUnlocked sched unlocked).tree)
    (hfatal' : NoFatalSince e.tree (e.insertAllUnlocked sched' unlocked).tree)
    (hd : Drained W ∅ (e.insertAllUnlocked sched unlocked).tree)
    (hd' : Drained W ∅ (e.insertAllUnlocked sched' unlocked).tree) :
    SameResult (e.insertAllUnlocked sched unlocked) (e.insertAllUnlocked sched' unlocked) := by
  obtain ⟨u, r⟩ := insertAllUnlocked_underway h hmap hprovider hfatal
  obtain ⟨u', r'⟩ := insertAllUnlocked_underway h hmap hprovider hfatal'
  have hsound := h.chain.toSound
  have hbuffer := h.drained.wf.buffer
  have hstored : (e.insertAllUnlocked sched' unlocked).tree.storedHashes =
      (e.insertAllUnlocked sched unlocked).tree.storedHashes := by
    ext k
    exact (u'.stored_iff hsound hbuffer hd' k).trans (u.stored_iff hsound hbuffer hd k).symm
  obtain ⟨hparked, hresponses⟩ := r.same r'
  exact ⟨hstored, u.sameHead u' h.above h.chain.headStored hstored, hparked, hresponses⟩

/-- the receipt depends on the order only where it unlocks nothing, in the order of the requests for bytecodes -/
theorem receiveOutcome_order (e : ConsensusEngine E) (sched sched' : StateRoot.Schedule) (data : DownloadData) :
    e.receiveOutcome sched' data = e.receiveOutcome sched data ∨
      (e.receiveOutcome sched data).1 = .ok ∅ ∧ (e.receiveOutcome sched' data).1 = .ok ∅ ∧
        SameResult (e.receiveOutcome sched data).2 (e.receiveOutcome sched' data).2 := by
  cases data with
  | finalizedBlock block ancestors => exact Or.inl rfl
  | fullBlock block => exact Or.inl rfl
  | bytecode codeHash bytecode => exact Or.inl rfl
  | witness blockHash witness =>
    simp only [receiveOutcome]
    cases e.tree.provider.missingCodeHashes (witness.bytecodeHashes E.codec) with
    | error error => exact Or.inl rfl
    | ok missing =>
      simp only
      split_ifs
      · exact Or.inl rfl
      · exact Or.inr ⟨rfl, rfl, rfl, rfl, rfl, rfl⟩

theorem insertAllUnlocked_empty (e : ConsensusEngine E) (sched : StateRoot.Schedule) :
    e.insertAllUnlocked sched ∅ = e := by
  have hnil : sched.order.list ∅ = [] :=
    List.eq_nil_iff_forall_not_mem.2 fun k hk => Finset.notMem_empty k ((sched.order.mem ∅ k).1 hk)
  unfold insertAllUnlocked
  rw [hnil]
  rfl

theorem receiveOutcome_insertions (e : ConsensusEngine E) (sched : StateRoot.Schedule) (data : DownloadData) :
    (e.receiveOutcome sched data).2.tree.insertions = e.tree.insertions := by
  have hreceived := receiveOutcome_received e sched data
  generalize e.receiveOutcome sched data = received at hreceived ⊢
  cases hreceived with
  | @bytecode codeHash bytecode =>
    simp only [EngineTree.onBytecode]
    cases e.tree.provider.insertBytecode codeHash bytecode <;> rfl
  | _ => rfl

/-- **A download outcome does the same in every order** of the hashes that it unlocks and of the children in the buffer,
if no insertion ends in a fatal error. -/
theorem onDownloadOutcome_same (e : ConsensusEngine E) (data : DownloadData)
    (h : OrderFree W sched (e.receiveOutcome sched data).2 (toTry (e.receiveOutcome sched data).1))
    (hmap : StorageTrieMap E) (hprovider : ProviderFatal E)
    (hfatal : NoFatalSince e.tree (e.onDownloadOutcome sched data).2.tree)
    (hfatal' : NoFatalSince e.tree (e.onDownloadOutcome sched' data).2.tree) :
    SameResult (e.onDownloadOutcome sched data).2 (e.onDownloadOutcome sched' data).2 := by
  have hcalls := receiveOutcome_insertions e sched data
  have hdrained : ∀ σ, e.receiveOutcome σ data = e.receiveOutcome sched data →
      Drained W ∅ (e.onDownloadOutcome σ data).2.tree := by
    intro σ hσ
    refine onDownloadOutcome_tree (P := fun U t => Drained W U t) e σ data ?_
      fun _ _ _ he => insertUnlocked_drained he σ
    rw [hσ]
    exact h.drained
  have hd := hdrained sched rfl
  unfold NoFatalSince at hfatal hfatal'
  rw [← hcalls] at hfatal hfatal'
  rcases receiveOutcome_order e sched sched' data with heq | ⟨hnone, hnone', hsame⟩
  · have hd' := hdrained sched' heq
    unfold onDownloadOutcome at hfatal hfatal' hd hd' ⊢
    rw [heq] at hfatal' hd' ⊢
    cases hr : e.receiveOutcome sched data with
    | mk result e₁ =>
      rw [hr] at h hfatal hfatal' hd hd'
      cases result with
      | error fatal => exact ⟨rfl, rfl, rfl, rfl⟩
      | ok unlocked =>
        have hset : toTry (.ok unlocked) = {k | k ∈ unlocked} := by
          ext k
          constructor
          · rintro ⟨_, hsome, hk⟩
            cases hsome
            exact hk
          · exact fun hk => ⟨unlocked, rfl, hk⟩
        rw [hset] at h
        exact insertAllUnlocked_same h hmap hprovider hfatal hfatal' hd hd'
  · unfold onDownloadOutcome
    cases hr : e.receiveOutcome sched data with
    | mk result e₁ =>
      cases hr' : e.receiveOutcome sched' data with
      | mk result' e₁' =>
        rw [hr] at hnone hsame
        rw [hr'] at hnone' hsame
        cases hnone
        cases hnone'
        simp only [insertAllUnlocked_empty]
        exact hsame

end ConsensusEngine

namespace StateRoot

/-- decreasing order of the hash -/
def decreasing : Enumeration B256 :=
  Enumeration.byKey (fun hash => (~~~hash).toNat) fun _ _ h => by
    have hnot := BitVec.eq_of_toNat_eq h
    simpa using hnot

/-- decreasing order, and delivery in that order -/
def reversedSchedule : Schedule := { sortedSchedule with order := decreasing }

theorem smallEnv_storageTrieMap : StorageTrieMap smallEnv where
  take_other _ _ _ _ := rfl
  take_comm _ _ _ _ := rfl
  insert_comm _ _ _ _ _ _ := rfl

end StateRoot

namespace EngineTree

variable {E : Env} {W : World} {sched : StateRoot.Schedule} {t₀ : EngineTree E}

theorem smallEnv_providerFatal : ProviderFatal smallEnv := fun error => ⟨.provider error, rfl⟩

/-- genesis lies above no block -/
theorem NoneAbove.of_genesis (hbuffer : t₀.blockBuffer.Known W) (hstored : ∀ k, t₀.Stored k → k = W.genesis.hash) :
    NoneAbove W sched t₀ := by
  intro s q hs hq hdescends
  obtain ⟨t, x, -, hx, rfl, -⟩ := hq.inserted
  have hknown := (hbuffer.blocks _ _ hx.block).2
  rw [hstored s hs] at hdescends hs
  rcases Relation.ReflTransGen.cases_head hdescends with heq | ⟨p, ⟨y, hy, rfl⟩, hp⟩
  · exact hq.1 (heq ▸ hs)
  · cases W.genesis_known.symm.trans hy
    have hroot : W.header W.genesis.parentHash = none := W.genesis_root
    rcases Relation.ReflTransGen.cases_head hp with heq | ⟨r, ⟨z, hz, -⟩, -⟩
    · rw [World.Knows, ← heq] at hknown
      cases hroot.symm.trans hknown
    · cases hroot.symm.trans hz

end EngineTree

namespace Node

open Chain (mainBlock twoBranches)
open ConsensusEngine (OrderFree SameResult)
open EngineTree (NoFatalSince smallEnv_providerFatal)
open StateRoot (reversedSchedule smallEnv_storageTrieMap sortedSchedule)

/-- a witness that needs the code with hash 7 -/
def codeWitness : ExecutionWitness := ⟨[[1, 0], [1, 7]], 4⟩

/-- a pass in which the request for the witness of this block is ready -/
def codeWitnessReady (n : ℕ) : NodeEvent smallEnv :=
  .poll ⟨{ Network.silent with witness := fun hash => if hash = (mainBlock n).hash then some codeWitness else none },
    false, sortedSchedule, none, none⟩

/-! ## Two blocks that need one code -/

theorem noFatalSince_of_ok {t₀ t : EngineTree smallEnv}
    (h : ∀ i ∈ t.insertions.drop t₀.insertions.length, i.result.toBool = true) : NoFatalSince t₀ t := by
  intro i hi kind hkind
  have hok := h i hi
  rw [hkind] at hok
  cases hok

/-- both blocks above genesis wait for the same code, and a payload for the first of them -/
def twoWaiting : ConsensusEngine smallEnv :=
  { ConsensusEngine.launch smallEnv ⟨∅, none, none⟩ twoBranches.genesis with
    tree := Run.run EngineTree.step (EngineTree.launch smallEnv ⟨∅, none, none⟩ twoBranches.genesis)
      [.bufferBlock (mainBlock 1), .bufferWitness 2 codeWitness {7}, .bufferBlock (mainBlock 2),
        .bufferWitness 3 codeWitness {7}]
    parkedPayload := some ⟨2, 5⟩ }

theorem twoWaiting_drained : EngineTree.Drained twoBranches ∅ twoWaiting.tree := by
  refine ⟨EngineTree.Wf.run (EngineTree.wf_launch twoBranches ⟨∅, none, none⟩) ?_, ?_⟩
  · intro op hop
    simp only [List.mem_cons, List.not_mem_nil, or_false] at hop
    rcases hop with rfl | rfl | rfl | rfl
    · exact Chain.mainBlock_knows (by omega)
    · trivial
    · exact Chain.mainBlock_knows (by omega)
    · trivial
  · intro h b hb hready
    have hkeys : twoWaiting.tree.blockBuffer.blocks.keys = {2, 3} := by decide +kernel
    have hmem := FMap.mem_keys_of_get hb
    rw [hkeys, Finset.mem_insert, Finset.mem_singleton] at hmem
    have hmissing : ∀ k : B256, k = 2 ∨ k = 3 → twoWaiting.tree.blockBuffer.missing k ≠ ∅ := by
      rintro k (rfl | rfl)
      · decide +kernel
      · decide +kernel
    exact absurd hready.2 (hmissing h hmem)

theorem twoWaiting_reachable :
    (twoWaiting.receiveOutcome sortedSchedule (.bytecode 7 ⟨[]⟩)).2.tree.blockBuffer.Reachable := by
  refine ⟨256, [.insertBlock (mainBlock 1), .insertWitness 2 codeWitness {7}, .insertBlock (mainBlock 2),
    .insertWitness 3 codeWitness {7}, .onBytecodeReceived 7], by decide, ?_, rfl⟩
  intro b b' hb hb' heq
  simp only [List.mem_cons, BufferOp.insertBlock.injEq, reduceCtorEq, List.not_mem_nil, or_false, false_or] at hb hb'
  rcases hb with rfl | rfl <;> rcases hb' with rfl | rfl
  · rfl
  · exact absurd heq (by decide)
  · exact absurd heq (by decide)
  · rfl

theorem twoWaiting_orderFree :
    OrderFree twoBranches sortedSchedule (twoWaiting.receiveOutcome sortedSchedule (.bytecode 7 ⟨[]⟩)).2
      (ConsensusEngine.toTry (twoWaiting.receiveOutcome sortedSchedule (.bytecode 7 ⟨[]⟩)).1) := by
  have hclear : ConsensusEngine.OutcomeClear twoBranches twoWaiting.tree (.bytecode 7 ⟨[]⟩) := trivial
  have hdrained := ConsensusEngine.receiveOutcome_drained twoWaiting_drained sortedSchedule hclear
  refine ⟨Chain.coherent_launch twoBranches, hdrained, twoWaiting_reachable.aged, ?_, fun _ _ _ => rfl, ?_⟩
  · refine EngineTree.NoneAbove.of_genesis hdrained.wf.buffer ?_
    rintro k ⟨b, hb⟩
    have hkeys : (twoWaiting.receiveOutcome sortedSchedule
        (.bytecode 7 ⟨[]⟩)).2.tree.provider.chainState.blocksByHash.keys = {(mainBlock 0).hash} := by decide +kernel
    have hmem := FMap.mem_keys_of_get hb
    rw [hkeys] at hmem
    exact Finset.mem_singleton.1 hmem
  · rintro h - hparked b hb
    cases hparked
    have hblock : (twoWaiting.receiveOutcome sortedSchedule (.bytecode 7 ⟨[]⟩)).2.tree.blockBuffer.blocks.get 2 =
        some (mainBlock 1) := by decide +kernel
    cases hblock.symm.trans hb
    have hgenesis : (twoWaiting.receiveOutcome sortedSchedule
        (.bytecode 7 ⟨[]⟩)).2.tree.provider.chainState.blocksByHash.get (mainBlock 1).parentHash = some (mainBlock 0) := by
      decide +kernel
    exact ⟨_, hgenesis⟩

/-- in both orders both blocks are validated and the payload is answered -/
theorem onDownloadOutcome_same_waiting :
    SameResult (twoWaiting.onDownloadOutcome sortedSchedule (.bytecode 7 ⟨[]⟩)).2
        (twoWaiting.onDownloadOutcome reversedSchedule (.bytecode 7 ⟨[]⟩)).2 ∧
      (twoWaiting.onDownloadOutcome sortedSchedule (.bytecode 7 ⟨[]⟩)).2.tree.Stored (mainBlock 2).hash ∧
      (twoWaiting.onDownloadOutcome sortedSchedule (.bytecode 7 ⟨[]⟩)).2.parkedPayload = none :=
  ⟨ConsensusEngine.onDownloadOutcome_same twoWaiting _ twoWaiting_orderFree smallEnv_storageTrieMap
    smallEnv_providerFatal (noFatalSince_of_ok (by decide +kernel)) (noFatalSince_of_ok (by decide +kernel)),
    ChainState.sealedHeader_isSome.1 (by decide +kernel), by decide +kernel⟩

/-! ## A block recorded as invalid -/

/-- block 258 is found invalid, and so is block 260 recorded; then block 258 is finalized, and stored without
execution; at last the witnesses of blocks 259 and 260 arrive, which need the same code -/
def sharedRun : List (NodeEvent smallEnv) :=
  [forkchoice 399 (mainBlock 257).hash 1, idle false, finalizedReady 257,
    .arrive (.newPayload (mainBlock 259, none) 2), idle false,
    .arrive (.newPayload (mainBlock 260, none) 3), idle false,
    .arrive (.newPayload (mainBlock 258, none) 4), idle false, junkReady 258,
    .arrive (.newPayload (mainBlock 260, none) 5), idle false,
    forkchoice 399 (mainBlock 258).hash 6, idle false, finalizedReady 258,
    codeWitnessReady 259, codeWitnessReady 260]

/-- **The order decides.** The code unlocks blocks 259 and 260. In increasing order block 260 is connected after its
parent, and validated; in decreasing order it is rejected on its own turn, as it is recorded as invalid. -/
theorem sharedRun_order_decides :
    (smallNode sharedRun).terminated = none ∧
      NoFatalSince (smallNode sharedRun).engine.tree
        ((smallNode sharedRun).engine.onDownloadOutcome sortedSchedule (.bytecode 7 ⟨[]⟩)).2.tree ∧
      NoFatalSince (smallNode sharedRun).engine.tree
        ((smallNode sharedRun).engine.onDownloadOutcome reversedSchedule (.bytecode 7 ⟨[]⟩)).2.tree ∧
      ¬ SameResult ((smallNode sharedRun).engine.onDownloadOutcome sortedSchedule (.bytecode 7 ⟨[]⟩)).2
        ((smallNode sharedRun).engine.onDownloadOutcome reversedSchedule (.bytecode 7 ⟨[]⟩)).2 := by
  refine ⟨by decide +kernel, noFatalSince_of_ok (by decide +kernel), noFatalSince_of_ok (by decide +kernel),
    fun h => ?_⟩
  have hstored : ((smallNode sharedRun).engine.onDownloadOutcome sortedSchedule
      (.bytecode 7 ⟨[]⟩)).2.tree.provider.chainState.blocksByHash.get (mainBlock 260).hash = some (mainBlock 260) := by
    decide +kernel
  have hnone : ((smallNode sharedRun).engine.onDownloadOutcome reversedSchedule
      (.bytecode 7 ⟨[]⟩)).2.tree.provider.chainState.blocksByHash.get (mainBlock 260).hash = none := by
    decide +kernel
  obtain ⟨b, hb⟩ := h.validated.symm.subset ⟨_, hstored⟩
  cases hnone.symm.trans hb

end Node

end Ress
