/-
The canonical map follows the canonical head: what a chain update does to the entries at every height.

Ancestors are taken through stored blocks (`StoredAnc`): the parent hash of a stored block, of its parent if that is
stored too, and so on. `FollowsHead` says that the canonical map has every stored ancestor of the head at its height and
nothing above the head. After an update to any target that `on_new_head` finds a chain for, the head is the target, and
from the point where the two chains fork the map holds the ancestors of the target instead
(`onCanonicalChainUpdate_follows`). At and below the fork point it is as before, so it follows the new head.
-/
import Ress.Tree.TreeRun

namespace Ress

namespace ChainState

/-! ## Ancestors through stored blocks -/

/-- `p` is the parent hash of the stored block with hash `d` -/
def StoredLink (s : ChainState) (d p : B256) : Prop := ∃ b, s.blocksByHash.get d = some b ∧ b.parentHash = p

/-- `a` is `d` or is reached from `d` by the parent hashes of stored blocks -/
def StoredAnc (s : ChainState) : B256 → B256 → Prop := Relation.ReflTransGen s.StoredLink

/-- the highest block that two chains have in common -/
structure ForkPoint (W : World) (s : ChainState) (a b fork : B256) (number : ℕ) : Prop where
  left : s.StoredAnc a fork
  right : s.StoredAnc b fork
  height : W.HasNumber fork number
  highest : ∀ g n, s.StoredAnc a g → s.StoredAnc b g → W.HasNumber g n → n ≤ number

variable {W : World} {s : ChainState}

theorem storedLink_fun (a b c : B256) (hb : s.StoredLink a b) (hc : s.StoredLink a c) : b = c := by
  obtain ⟨x, hx, rfl⟩ := hb
  obtain ⟨y, hy, rfl⟩ := hc
  rw [hx] at hy
  cases hy
  rfl

/-- an ancestor through stored blocks is an ancestor, if it is a block at all -/
theorem StoredAnc.anc (hk : s.Known W) (hl : s.Linked W) {d a : B256} {n : ℕ} (h : s.StoredAnc d a)
    (hn : W.HasNumber a n) : W.Anc d a := by
  induction h generalizing n with
  | refl => exact Relation.ReflTransGen.refl
  | tail _ hlink ih =>
    obtain ⟨b, hb, rfl⟩ := hlink
    obtain ⟨hbh, hbk⟩ := hk _ b hb
    refine (ih (hbh ▸ hbk.hasNumber)).tail ?_
    rcases hl _ b hb with hgen | hlink
    · -- genesis has no parent
      have heq : b.toSealedHeader = W.genesis.toSealedHeader := hbk.eq W.genesis_known (hbh.trans hgen)
      obtain ⟨x, hx, -⟩ := hn
      rw [show b.parentHash = W.genesis.parentHash from congrArg (fun x => x.parentHash) heq, W.genesis_root] at hx
      cases hx
    · exact hlink

/-- of two ancestors the lower one is an ancestor of the higher one -/
theorem StoredAnc.of_le (hk : s.Known W) (hl : s.Linked W) {d a b : B256} {n m : ℕ} (ha : s.StoredAnc d a)
    (hb : s.StoredAnc d b) (hn : W.HasNumber a n) (hm : W.HasNumber b m) (hle : m ≤ n) : s.StoredAnc a b := by
  rcases Relation.ReflTransGen.total_of_right_unique (fun x y z => storedLink_fun x y z) ha hb with h | h
  · exact h
  · have hanc := StoredAnc.anc hk hl h hn
    have hnum := Ancestry.num_le World.link_num hanc
    rw [hn.num_eq, hm.num_eq] at hnum
    have heq := Ancestry.eq_of_num World.link_num hanc (by rw [hn.num_eq, hm.num_eq]; omega)
    rw [heq]
    exact Relation.ReflTransGen.refl

/-- at most one ancestor at a height -/
theorem StoredAnc.unique (hk : s.Known W) (hl : s.Linked W) {d a b : B256} {n : ℕ} (ha : s.StoredAnc d a)
    (hb : s.StoredAnc d b) (hn : W.HasNumber a n) (hm : W.HasNumber b n) : a = b :=
  Ancestry.unique World.link_fun World.link_num (ha.anc hk hl hn) (hb.anc hk hl hm)
    (hn.num_eq.trans hm.num_eq.symm)

/-- a segment of stored headers is a segment of stored blocks -/
theorem Segment.stored (hk : s.Known W) {base top : B256} {l : List SealedHeader} (h : Segment W base l top)
    (hl : s.AllStored l) : Ancestry.SegmentOf s.StoredLink base (l.map (·.hash)) top := by
  induction l using List.reverseRecOn generalizing top with
  | nil =>
    rw [Ancestry.SegmentOf.nil_inv h]
    exact Ancestry.SegmentOf.nil
  | append_singleton l x ih =>
    simp only [Segment, List.map_append, List.map_singleton] at h ⊢
    obtain ⟨rfl, p, hseg, hlink⟩ := h.concat_inv
    obtain ⟨k, hx⟩ := hl x (by simp)
    obtain ⟨hxk, hxw⟩ := hk.header hx
    obtain ⟨b, hb, rfl⟩ := sealedHeader_some.1 hx
    have hstep : s.StoredLink b.hash p := ⟨b, by rw [hxk]; exact hb, World.Link.parent hxw hlink⟩
    exact Ancestry.SegmentOf.snoc (ih hseg fun y hy => hl y (List.mem_append_left _ hy)) hstep

/-- the headers of a segment that are stored lead from its top to its base -/
theorem Segment.storedAnc (hk : s.Known W) {base top : B256} {l : List SealedHeader} (h : Segment W base l top)
    (hl : s.AllStored l) : s.StoredAnc top base ∧ ∀ x ∈ l, s.StoredAnc top x.hash := by
  have hseg := h.stored hk hl
  exact ⟨hseg.anc, fun x hx => hseg.mem_anc _ (List.mem_map_of_mem hx)⟩

/-- the header of a segment at a height -/
theorem Segment.exists_number (hk : s.Known W) {base top : B256} {l : List SealedHeader} (h : Segment W base l top)
    (hl : s.AllStored l) {n : ℕ} (hlo : W.num base < n) (hhi : n ≤ W.num top) : ∃ x ∈ l, x.number = n := by
  obtain ⟨k, hk', hnum⟩ := Ancestry.SegmentOf.exists_num World.link_num h hlo hhi
  obtain ⟨x, hx, rfl⟩ := List.mem_map.1 hk'
  obtain ⟨k', hx'⟩ := hl x hx
  exact ⟨x, hx, by rw [← hnum, (hk.header hx').2.hasNumber.num_eq]⟩

/-- the headers of a segment are above its base -/
theorem Segment.number_lt (hk : s.Known W) {base top : B256} {l : List SealedHeader} (h : Segment W base l top)
    (hl : s.AllStored l) : ∀ x ∈ l, W.num base < x.number := by
  intro x hx
  obtain ⟨k, hx'⟩ := hl x hx
  rw [← (hk.header hx').2.hasNumber.num_eq]
  exact Ancestry.SegmentOf.num_lt World.link_num h _ (List.mem_map_of_mem hx)

/-! ## The entries after an update -/

theorem insertCanonicalHashes_isSome {new : List SealedHeader} {x : SealedHeader} (hx : x ∈ new) (s : ChainState) :
    ∃ h, (new.foldl (fun s header => s.insertCanonicalHash header.number header.hash)
      s).canonicalHashesByNumber.get x.number = some h := by
  induction new using List.reverseRecOn with
  | nil => simp at hx
  | append_singleton new y ih =>
    rw [List.foldl_append, List.foldl_cons, List.foldl_nil]
    simp only [insertCanonicalHash, FMap.get_set]
    split_ifs with hn
    · exact ⟨_, rfl⟩
    · rcases List.mem_append.1 hx with hx | hx
      · exact ih hx
      · rw [List.mem_singleton.1 hx] at hn
        exact absurd rfl hn

/-- at the height of a new header the entry is that header's, if no two of them are at one height -/
theorem onChainUpdate_new {new old : List SealedHeader} {x : SealedHeader} (hx : x ∈ new)
    (hunique : ∀ y ∈ new, y.number = x.number → y.hash = x.hash) :
    (s.onChainUpdate new old).canonicalHashesByNumber.get x.number = some x.hash := by
  obtain ⟨h, hh⟩ := insertCanonicalHashes_isSome hx
    (old.foldl (fun s header => s.removeCanonicalHash header.number header.hash) s)
  have hget : (s.onChainUpdate new old).canonicalHashesByNumber.get x.number = some h := hh
  rcases onChainUpdate_get hget with ⟨y, hy, hyn, rfl⟩ | ⟨hne, -⟩
  · rw [hget, hunique y hy hyn]
  · exact absurd rfl (hne x hx)

/-- at a height of no header of the update the entry stays -/
theorem onChainUpdate_other {new old : List SealedHeader} {n : ℕ} (hnew : ∀ x ∈ new, x.number ≠ n)
    (hold : ∀ x ∈ old, x.number ≠ n) :
    (s.onChainUpdate new old).canonicalHashesByNumber.get n = s.canonicalHashesByNumber.get n := by
  simp only [onChainUpdate]
  rw [insertCanonicalHashes_get_ne hnew]
  apply Option.ext
  intro h
  rw [removeCanonicalHashes_get]
  exact and_iff_left fun x hx heq => hold x hx heq.1

end ChainState

namespace Chain

variable {W : World} {c : Chain}

/-- the canonical map has every stored ancestor of the head at its height, and nothing above the head -/
structure FollowsHead (W : World) (c : Chain) : Prop where
  known : c.state.Known W
  linked : c.state.Linked W
  head : W.HasNumber c.head.hash c.head.number
  agrees : ∀ h b, c.state.StoredAnc c.head.hash h → c.state.blocksByHash.get h = some b →
    c.state.canonicalHashesByNumber.get b.number = some h
  above : ∀ n, c.head.number < n → c.state.canonicalHashesByNumber.get n = none

/-- what is known of an update that `on_new_head` finds: its two lists are segments of stored headers that start from
one base -/
structure UpdateParts (W : World) (c : Chain) (target : B256) (update : NewCanonicalChain) (base : B256) : Prop where
  tip : c.state.sealedHeader target = some update.tip
  newStored : c.state.AllStored update.new
  oldStored : c.state.AllStored update.old
  newSegment : ChainState.Segment W base update.new target
  oldSegment : ChainState.Segment W base update.old c.head.hash
  height : W.HasNumber base (W.num base)

theorem FollowsHead.parts (h : FollowsHead W c) {target : B256} {update : NewCanonicalChain}
    (hu : c.state.onNewHead c.head target = some update) : ∃ base, UpdateParts W c target update base := by
  obtain ⟨htip, hnew, hold⟩ := ChainState.onNewHead_stored hu
  obtain ⟨base, hoseg, hnseg⟩ := ChainState.onNewHead_segments h.known h.linked h.head hu
  refine ⟨base, htip, hnew, hold, hnseg, hoseg, ?_⟩
  rcases Relation.ReflTransGen.cases_tail hoseg.anc with heq | ⟨m, -, x, y, -, hy, -⟩
  · obtain ⟨y, hy, -⟩ := h.head
    exact ⟨y, heq ▸ hy, by simp [World.num, heq, hy]⟩
  · exact ⟨y, hy, by simp [World.num, hy]⟩

section Update

variable {target base : B256} {update : NewCanonicalChain}

/-- the target's number -/
theorem UpdateParts.target_number (h : FollowsHead W c) (hp : UpdateParts W c target update base) :
    update.tip.hash = target ∧ W.HasNumber target update.tip.number := by
  obtain ⟨hhash, hknown⟩ := ChainState.Known.header h.known hp.tip
  exact ⟨hhash, hhash ▸ hknown.hasNumber⟩

/-- a header of the update by its stored block -/
theorem UpdateParts.stored (h : FollowsHead W c) {l : List SealedHeader} (hl : c.state.AllStored l) {x : SealedHeader}
    (hx : x ∈ l) : W.HasNumber x.hash x.number ∧ ∃ b, c.state.blocksByHash.get x.hash = some b ∧ b.number = x.number := by
  obtain ⟨k, hk⟩ := hl x hx
  obtain ⟨hhash, hknown⟩ := ChainState.Known.header h.known hk
  obtain ⟨b, hb, rfl⟩ := ChainState.sealedHeader_some.1 hk
  exact ⟨hknown.hasNumber, b, hhash ▸ hb, rfl⟩

/-- **Above the base** the map holds the target's ancestors. -/
theorem UpdateParts.entry_new (h : FollowsHead W c) (hp : UpdateParts W c target update base) {n : ℕ}
    (hlo : W.num base < n) (hhi : n ≤ update.tip.number) :
    ∃ x ∈ update.new, x.number = n ∧ c.state.StoredAnc target x.hash ∧
      (c.onCanonicalChainUpdate update).state.canonicalHashesByNumber.get n = some x.hash := by
  obtain ⟨-, hnum⟩ := hp.target_number h
  obtain ⟨x, hx, rfl⟩ := hp.newSegment.exists_number h.known hp.newStored hlo (hnum.num_eq ▸ hhi)
  have hanc := (hp.newSegment.storedAnc h.known hp.newStored).2
  refine ⟨x, hx, rfl, hanc x hx, ChainState.onChainUpdate_new hx ?_⟩
  intro y hy hyn
  have hyx := (UpdateParts.stored h hp.newStored hy).1
  rw [hyn] at hyx
  exact (hanc y hy).unique h.known h.linked (hanc x hx) hyx (UpdateParts.stored h hp.newStored hx).1

/-- **At and below the base** nothing changes. -/
theorem UpdateParts.entry_base (h : FollowsHead W c) (hp : UpdateParts W c target update base) {n : ℕ}
    (hn : n ≤ W.num base) :
    (c.onCanonicalChainUpdate update).state.canonicalHashesByNumber.get n = c.state.canonicalHashesByNumber.get n := by
  apply ChainState.onChainUpdate_other
  · intro x hx
    have hlt := hp.newSegment.number_lt h.known hp.newStored x hx
    omega
  · intro x hx
    have hlt := hp.oldSegment.number_lt h.known hp.oldStored x hx
    omega

/-- **Above the target** nothing is left. -/
theorem UpdateParts.entry_above (h : FollowsHead W c) (hp : UpdateParts W c target update base) {n : ℕ}
    (hn : update.tip.number < n) :
    (c.onCanonicalChainUpdate update).state.canonicalHashesByNumber.get n = none := by
  obtain ⟨-, hnum⟩ := hp.target_number h
  by_contra hne
  obtain ⟨k, hk⟩ := Option.ne_none_iff_exists'.1 hne
  rcases ChainState.onChainUpdate_get hk with ⟨x, hx, hxn, -⟩ | ⟨-, hs, hout⟩
  · have hxnum := (UpdateParts.stored h hp.newStored hx).1
    have hle := Ancestry.num_le World.link_num (hp.newSegment.mem_anc _ (List.mem_map_of_mem hx))
    rw [hxnum.num_eq, hnum.num_eq] at hle
    omega
  · -- the entry was there, so it is at most at the head's height: it is the old chain's, and was removed
    have hle : n ≤ c.head.number := by
      by_contra hgt
      rw [h.above n (not_le.1 hgt)] at hs
      cases hs
    have hbase := Ancestry.num_le World.link_num hp.newSegment.anc
    rw [hnum.num_eq] at hbase
    obtain ⟨x, hx, hxn⟩ := hp.oldSegment.exists_number h.known hp.oldStored (n := n) (by omega)
      (h.head.num_eq ▸ hle)
    obtain ⟨-, b, hb, hbn⟩ := UpdateParts.stored h hp.oldStored hx
    have hagree := h.agrees _ b ((hp.oldSegment.storedAnc h.known hp.oldStored).2 x hx) hb
    rw [hbn, hxn, hs] at hagree
    exact hout x hx ⟨hxn, (Option.some.inj hagree).symm⟩

/-- at and below a block that both chains have, the map is unchanged -/
theorem UpdateParts.entry_common (h : FollowsHead W c) (hp : UpdateParts W c target update base) {fork : B256}
    {number n : ℕ} (hf : c.state.ForkPoint W target c.head.hash fork number) (hn : n ≤ number) :
    (c.onCanonicalChainUpdate update).state.canonicalHashesByNumber.get n = c.state.canonicalHashesByNumber.get n := by
  rcases Nat.lt_or_ge (W.num base) n with hlo | hge
  · obtain ⟨-, hnum⟩ := hp.target_number h
    have hle := Ancestry.num_le World.link_num (hf.left.anc h.known h.linked hf.height)
    rw [hf.height.num_eq, hnum.num_eq] at hle
    obtain ⟨x, hx, hxn, hanc, hget⟩ := hp.entry_new h hlo (hn.trans hle)
    obtain ⟨hxnum, b, hb, hbn⟩ := UpdateParts.stored h hp.newStored hx
    -- the target's ancestor at this height is below the fork, so it is the head's ancestor too
    have hbelow := hf.left.of_le h.known h.linked hanc hf.height hxnum (hxn ▸ hn)
    have hagree := h.agrees _ b (hf.right.trans hbelow) hb
    rw [hbn, hxn] at hagree
    rw [hget, hagree]
  · exact hp.entry_base h hge

/-- both chains have the base, so they have a highest block in common -/
theorem UpdateParts.exists_fork (h : FollowsHead W c) (hp : UpdateParts W c target update base) :
    ∃ fork number, c.state.ForkPoint W target c.head.hash fork number := by
  obtain ⟨-, hnum⟩ := hp.target_number h
  have hcommon : {n | ∃ g, c.state.StoredAnc target g ∧ c.state.StoredAnc c.head.hash g ∧ W.HasNumber g n}.Nonempty :=
    ⟨W.num base, base, (hp.newSegment.storedAnc h.known hp.newStored).1,
      (hp.oldSegment.storedAnc h.known hp.oldStored).1, hp.height⟩
  have hbounded : BddAbove
      {n | ∃ g, c.state.StoredAnc target g ∧ c.state.StoredAnc c.head.hash g ∧ W.HasNumber g n} := by
    refine ⟨update.tip.number, ?_⟩
    rintro n ⟨g, hg, -, hgn⟩
    have hle := Ancestry.num_le World.link_num (hg.anc h.known h.linked hgn)
    rwa [hgn.num_eq, hnum.num_eq] at hle
  obtain ⟨fork, hleft, hright, hheight⟩ := Nat.sSup_mem hcommon hbounded
  exact ⟨fork, _, hleft, hright, hheight, fun g n hg hg' hgn => le_csSup hbounded ⟨g, hg, hg', hgn⟩⟩

theorem onCanonicalChainUpdate_storedAnc (c : Chain) (update : NewCanonicalChain) (d a : B256) :
    (c.onCanonicalChainUpdate update).state.StoredAnc d a ↔ c.state.StoredAnc d a := by
  have hlink : (c.onCanonicalChainUpdate update).state.StoredLink = c.state.StoredLink := by
    funext d p
    simp only [ChainState.StoredLink, onCanonicalChainUpdate_blocks]
  simp only [ChainState.StoredAnc, hlink]

/-- **The map follows the new head.** -/
theorem FollowsHead.onCanonicalChainUpdate (h : FollowsHead W c) (hu : c.state.onNewHead c.head target = some update) :
    FollowsHead W (c.onCanonicalChainUpdate update) := by
  obtain ⟨base, hp⟩ := h.parts hu
  obtain ⟨hhash, hnum⟩ := hp.target_number h
  have hblocks := onCanonicalChainUpdate_blocks c update
  refine ⟨?_, ?_, ?_, ?_, fun n hn => hp.entry_above h hn⟩
  · intro k b hb
    rw [hblocks] at hb
    exact h.known k b hb
  · intro k b hb
    rw [hblocks] at hb
    exact h.linked k b hb
  · show W.HasNumber update.tip.hash update.tip.number
    rw [hhash]
    exact hnum
  · intro k b hanc hb
    rw [hblocks] at hb
    have hanc : c.state.StoredAnc target k := by
      rw [onCanonicalChainUpdate_storedAnc] at hanc
      exact hhash ▸ hanc
    obtain ⟨hbk, hbw⟩ := h.known k b hb
    have hbn : W.HasNumber k b.number := hbk ▸ hbw.hasNumber
    have hle := Ancestry.num_le World.link_num (hanc.anc h.known h.linked hbn)
    rw [hbn.num_eq, hnum.num_eq] at hle
    rcases Nat.lt_or_ge (W.num base) b.number with hlo | hge
    · obtain ⟨x, hx, hxn, hxanc, hget⟩ := hp.entry_new h hlo hle
      have hxnum := (UpdateParts.stored h hp.newStored hx).1
      rw [hget, hxanc.unique h.known h.linked hanc (hxn ▸ hxnum) hbn]
    · -- at or below the base: an ancestor of the old head as well
      have hbase := (hp.newSegment.storedAnc h.known hp.newStored).1
      have hbelow := hbase.of_le h.known h.linked hanc hp.height hbn hge
      rw [hp.entry_base h hge]
      exact h.agrees k b ((hp.oldSegment.storedAnc h.known hp.oldStored).1.trans hbelow) hb

end Update

end Chain

namespace EngineTree

open Chain (FollowsHead)

variable {E : Env} {W : World}

/-- **Chain updates keep the canonical map equal to the head's ancestry.** For every target that `on_new_head` finds a
chain for, the head becomes the target; above the point where the chains fork, the map holds the target's ancestor at
every height up to the target, and nothing above it; at and below the fork point it is unchanged; and so it follows the
new head as it followed the old one. -/
theorem onCanonicalChainUpdate_follows (t : EngineTree E) (h : FollowsHead W t.chain) {target : B256}
    {update : NewCanonicalChain} (hu : t.onNewHead target = some update) :
    (t.onCanonicalChainUpdate update).canonicalHead.hash = target ∧
      (∃ b, t.provider.chainState.blocksByHash.get target = some b ∧
        (t.onCanonicalChainUpdate update).canonicalHead.number = b.number) ∧
      (∃ fork number, t.provider.chainState.ForkPoint W target t.canonicalHead.hash fork number ∧
        (∀ n, number < n → n ≤ (t.onCanonicalChainUpdate update).canonicalHead.number →
          ∃ k b, (t.onCanonicalChainUpdate update).provider.chainState.canonicalHashesByNumber.get n = some k ∧
            t.provider.chainState.StoredAnc target k ∧ t.provider.chainState.blocksByHash.get k = some b ∧
            b.number = n) ∧
        ∀ n ≤ number, (t.onCanonicalChainUpdate update).provider.chainState.canonicalHashesByNumber.get n =
          t.provider.chainState.canonicalHashesByNumber.get n) ∧
      (∀ n, (t.onCanonicalChainUpdate update).canonicalHead.number < n →
        (t.onCanonicalChainUpdate update).provider.chainState.canonicalHashesByNumber.get n = none) ∧
      FollowsHead W (t.onCanonicalChainUpdate update).chain := by
  obtain ⟨base, hp⟩ := h.parts hu
  have hfollows := h.onCanonicalChainUpdate hu
  obtain ⟨hhash, -⟩ := hp.target_number h
  obtain ⟨tip, htip, htipn⟩ := ChainState.sealedHeader_some.1 hp.tip
  obtain ⟨fork, number, hfork⟩ := hp.exists_fork h
  refine ⟨hhash, ⟨tip, htip, congrArg (·.number) htipn.symm⟩, ⟨fork, number, hfork, ?_, ?_⟩, hfollows.above, hfollows⟩
  · intro n hlo hhi
    have hbase := hfork.highest base _ (hp.newSegment.storedAnc h.known hp.newStored).1
      (hp.oldSegment.storedAnc h.known hp.oldStored).1 hp.height
    obtain ⟨x, hx, hxn, hanc, hget⟩ := hp.entry_new h (lt_of_le_of_lt hbase hlo) hhi
    obtain ⟨-, b, hb, hbn⟩ := Chain.UpdateParts.stored h hp.newStored hx
    exact ⟨x.hash, b, hget, hanc, hb, hbn.trans hxn⟩
  · intro n hn
    exact hp.entry_common h hfork hn

theorem makeCanonical_follows {t : EngineTree E} (h : FollowsHead W t.chain) (target : B256) :
    FollowsHead W (t.makeCanonical target).chain := by
  unfold makeCanonical
  cases hu : t.onNewHead target with
  | none => exact h
  | some update => exact h.onCanonicalChainUpdate hu

/-! ## A reorg -/

open Chain (twoBranches mainBlock sideBlock mainBlock_knows sideBlock_knows)

/-- a new node that has stored two blocks of the main branch and one beside them -/
def threeStored : EngineTree smallEnv :=
  { launch smallEnv ⟨∅, none, none⟩ twoBranches.genesis with
    provider := (((launch smallEnv ⟨∅, none, none⟩ twoBranches.genesis).provider.insertBlock (mainBlock 1)
      none).insertBlock (mainBlock 2) none).insertBlock (sideBlock 1) none }

theorem threeStored_follows : FollowsHead twoBranches threeStored.chain := by
  have hmain₁ : Chain.OpOk twoBranches (Chain.launch twoBranches.genesis) (.insertBlock (mainBlock 1) none) :=
    ⟨mainBlock_knows (by omega), twoBranches.genesis, by decide +kernel, rfl⟩
  have hmain₂ : Chain.OpOk twoBranches ((Chain.launch twoBranches.genesis).step (.insertBlock (mainBlock 1) none))
      (.insertBlock (mainBlock 2) none) := ⟨mainBlock_knows (by omega), mainBlock 1, by decide +kernel, rfl⟩
  have hside : Chain.OpOk twoBranches (((Chain.launch twoBranches.genesis).step
      (.insertBlock (mainBlock 1) none)).step (.insertBlock (mainBlock 2) none)) (.insertBlock (sideBlock 1) none) :=
    ⟨sideBlock_knows.1, twoBranches.genesis, by decide +kernel, rfl⟩
  have hsound : Chain.Sound twoBranches threeStored.chain :=
    (((Chain.sound_launch twoBranches).step hmain₁ trivial).step hmain₂ trivial).step hside trivial
  refine ⟨hsound.state.known, hsound.linked, hsound.head, ?_, ?_⟩
  · intro h b hanc hb
    -- the head is genesis, which has no ancestor but itself
    obtain ⟨hbh, hbk⟩ := hsound.state.known h b hb
    have hbn : twoBranches.HasNumber h b.number := hbh ▸ hbk.hasNumber
    have hw := hanc.anc hsound.state.known hsound.linked hbn
    have hle := Ancestry.num_le World.link_num hw
    have hzero : twoBranches.num threeStored.chain.head.hash = 0 := by decide +kernel
    rw [hbn.num_eq, hzero] at hle
    have heq := Ancestry.eq_of_num World.link_num hw (by rw [hbn.num_eq, hzero]; omega)
    rw [heq, Nat.le_zero.1 hle]
    decide +kernel
  · intro n hn
    have hzero : threeStored.chain.head.number = 0 := by decide +kernel
    have hmap : threeStored.chain.state.canonicalHashesByNumber = (∅ : FMap ℕ B256).set 0 1 := rfl
    rw [hmap, FMap.get_set_ne _ _ (by omega), FMap.get_empty]

/-- the main branch is canonical up to block 2, and the block beside it becomes the head: both main blocks are reorged,
and height 2 is empty again -/
theorem onCanonicalChainUpdate_follows_reorg :
    ∃ update, (threeStored.makeCanonical 3).onNewHead 1001 = some update ∧ update.old.map (·.hash) = [2, 3] ∧
      ((threeStored.makeCanonical 3).onCanonicalChainUpdate update).canonicalHead.hash = 1001 ∧
      ((threeStored.makeCanonical 3).onCanonicalChainUpdate update).provider.chainState.canonicalHashesByNumber.get 2 =
        none ∧
      FollowsHead twoBranches ((threeStored.makeCanonical 3).onCanonicalChainUpdate update).chain := by
  have hold : ((threeStored.makeCanonical 3).onNewHead 1001).map (fun update => update.old.map (·.hash)) =
      some [2, 3] := by decide +kernel
  obtain ⟨update, hu, hupdate⟩ := Option.map_eq_some_iff.1 hold
  obtain ⟨hhead, ⟨b, hb, hnumber⟩, -, habove, hfollows⟩ := onCanonicalChainUpdate_follows (threeStored.makeCanonical 3)
    (makeCanonical_follows threeStored_follows 3) hu
  refine ⟨update, hu, hupdate, hhead, habove 2 ?_, hfollows⟩
  have hget : (threeStored.makeCanonical 3).provider.chainState.blocksByHash.get 1001 = some (sideBlock 1) := by
    decide +kernel
  cases hget.symm.trans hb
  rw [hnumber]
  decide

end EngineTree

end Ress
