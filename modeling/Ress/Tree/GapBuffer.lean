/-
The buffer while a gap is fetched.

A gap is fetched from its end down: `Buffered` says that all above block `j` is buffered, and how much of block `j` has
arrived. What arrives next completes block `j` piece by piece. Once it is complete it is taken out to be inserted, and
put back where its parent is not stored, which makes the parent the next to be fetched (`Buffered.shift`). When the
lowest block can be inserted, the others are taken in order (`Buffered.takes`).
-/
import Ress.Tree.BufferSweeps
import Ress.Tree.Gap

namespace Ress

namespace BlockBuffer

variable {β : BlockBuffer} {hash k : B256} {s : Finset B256}

/-- taking a block enters no missing bytecodes -/
theorem removeBlock_entries (h : (β.removeBlock hash).2.missingBytecodes.get k = some s) :
    β.missingBytecodes.get k = some s := by
  simp only [removeBlock, removeWitness] at h
  cases hb : β.blocks.get hash with
  | none =>
    simp only [hb] at h
    exact h
  | some b =>
    by_cases hm : β.missing hash = ∅
    · simp only [hb, if_pos hm] at h
      cases hw : β.witnesses.get hash with
      | none =>
        simp only [hw] at h
        exact (FMap.get_del_some h).2
      | some w =>
        simp only [hw] at h
        exact (FMap.get_del_some h).2
    · simp only [hb, if_neg hm] at h
      exact h

/-- missing bytecodes that are not empty have an entry -/
theorem entry_of_missing (h : β.missing k = s) (hne : s ≠ ∅) : β.missingBytecodes.get k = some s := by
  unfold missing at h
  cases he : β.missingBytecodes.get k with
  | none =>
    rw [he] at h
    exact absurd h.symm hne
  | some s' =>
    rw [he] at h
    exact congrArg some h

theorem removeBlock_same (hk : β.Keyed) (h : (β.removeBlock hash).1 = none) (k : B256) :
    SameAt k β (β.removeBlock hash).2 := by
  rcases removeBlock_same_or hk hash k with hsame | ⟨x, hx, -⟩
  · exact hsame
  · rw [h] at hx
    exact absurd hx List.not_mem_nil

end BlockBuffer

namespace Gap

open BlockBuffer (Aged LinksOn SameAt EmptyAt)

variable {E : Env} {W : World} {code : B256 → Option Bytecode} {G : Gap E W code} {β β' : BlockBuffer} {j : ℕ}
  {here : Bool} {missing : Option (Finset B256)} {s : Finset B256}

/-- above block `j` all is buffered; of block `j` itself the block is `here` or not, and its witness has not arrived or
lacks these bytecodes -/
structure Buffered (G : Gap E W code) (j : ℕ) (here : Bool) (missing : Option (Finset B256)) (β : BlockBuffer) :
    Prop where
  aged : ∃ history, Aged 256 history Set.univ β
  links : LinksOn Set.univ β
  blocks : ∀ h x, β.blocks.get h = some x ↔
    ∃ i, (j < i ∨ i = j ∧ here = true) ∧ i ≤ G.length ∧ h = (G.block i).hash ∧ x = G.block i
  above : ∀ i, j < i → i ≤ G.length → β.witnesses.get (G.block i).hash = some (G.witness i)
  own : β.witnesses.get (G.block j).hash = missing.map fun _ => G.witness j
  below : ∀ i < j, β.witnesses.get (G.block i).hash = none
  entries : ∀ h s, β.missingBytecodes.get h = some s ↔ h = (G.block j).hash ∧ missing = some s ∧ s ≠ ∅

/-- a new buffer has nothing of the gap -/
theorem buffered_new (G : Gap E W code) : G.Buffered G.length false none (BlockBuffer.new 256) where
  aged := ⟨[], Aged.new 256⟩
  links := ⟨(Aged.new 256).keyed, GroupIndex.Indexes.empty _⟩
  blocks h x := by
    refine ⟨fun hb => ?_, fun ⟨i, hi, hle, _⟩ => ?_⟩
    · cases (FMap.get_empty h).symm.trans hb
    · rcases hi with hlt | ⟨-, hfalse⟩
      · omega
      · cases hfalse
  above i hlt hle := by omega
  own := FMap.get_empty _
  below i _ := FMap.get_empty _
  entries h s := by
    refine ⟨fun he => ?_, fun ⟨_, hs, _⟩ => ?_⟩
    · cases (FMap.get_empty h).symm.trans he
    · cases hs

theorem Buffered.keyed (h : G.Buffered j here missing β) : β.Keyed := h.links.keyed

/-- the blocks up to the one that is awaited are not there -/
theorem Buffered.notBuffered (h : G.Buffered j here missing β) {i : ℕ} (hi : i < j ∨ i = j ∧ here = false)
    (hj : j ≤ G.length) : β.blocks.get (G.block i).hash = none := by
  cases hb : β.blocks.get (G.block i).hash with
  | none => rfl
  | some x =>
    obtain ⟨i', hi', hle, heq, -⟩ := (h.blocks _ _).1 hb
    have := G.hash_inj (by omega) hle heq
    rcases hi with hlt | ⟨rfl, hfalse⟩
    · omega
    · rcases hi' with hlt | ⟨-, htrue⟩
      · omega
      · cases hfalse.symm.trans htrue

theorem Buffered.missing_eq (h : G.Buffered j here missing β) (hash : B256) :
    β.missing hash = if hash = (G.block j).hash then missing.getD ∅ else ∅ := by
  unfold BlockBuffer.missing
  cases he : β.missingBytecodes.get hash with
  | some s =>
    obtain ⟨rfl, rfl, -⟩ := (h.entries _ _).1 he
    rw [if_pos rfl]
  | none =>
    by_cases hk : hash = (G.block j).hash
    · rw [if_pos hk]
      cases missing with
      | none => rfl
      | some s =>
        by_contra hne
        cases he.symm.trans ((h.entries _ s).2 ⟨hk, rfl, Ne.symm hne⟩)
    · rw [if_neg hk]
      rfl

/-- a buffer that has the same under every hash -/
theorem Buffered.congr (h : G.Buffered j here missing β) (haged : ∃ history, Aged 256 history Set.univ β')
    (hlinks : LinksOn Set.univ β') (hsame : ∀ k, SameAt k β β')
    (hentries : ∀ k s, β'.missingBytecodes.get k = some s → β.missingBytecodes.get k = some s) :
    G.Buffered j here missing β' where
  aged := haged
  links := hlinks
  blocks hash x := by
    rw [(hsame hash).block]
    exact h.blocks hash x
  above i hlt hle := (hsame _).witness.trans (h.above i hlt hle)
  own := (hsame _).witness.trans h.own
  below i hi := (hsame _).witness.trans (h.below i hi)
  entries hash s := by
    constructor
    · exact fun he => (h.entries hash s).1 (hentries hash s he)
    · rintro ⟨rfl, rfl, hne⟩
      refine BlockBuffer.entry_of_missing ?_ hne
      rw [(hsame _).missing, h.missing_eq, if_pos rfl]
      rfl

/-! ## What arrives -/

/-- there is room for the block -/
theorem Buffered.room (h : G.Buffered j false missing β) (hpos : 0 < j) (hj : j ≤ G.length) (hfits : G.length ≤ 256) :
    β.lru.order.length < β.lru.limit := by
  obtain ⟨history, haged⟩ := h.aged
  have hsub : β.blocks.keys ⊆ (Finset.Ioc j G.length).image fun i => (G.block i).hash := by
    intro k hk
    obtain ⟨x, hx⟩ := FMap.mem_keys.1 hk
    obtain ⟨i, hi, hle, rfl, -⟩ := (h.blocks k x).1 hx
    refine Finset.mem_image.2 ⟨i, Finset.mem_Ioc.2 ⟨?_, hle⟩, rfl⟩
    rcases hi with hlt | ⟨-, hfalse⟩
    · exact hlt
    · cases hfalse
  have hcard : β.blocks.keys.card ≤ G.length - j :=
    calc β.blocks.keys.card ≤ ((Finset.Ioc j G.length).image fun i => (G.block i).hash).card := Finset.card_le_card hsub
      _ ≤ (Finset.Ioc j G.length).card := Finset.card_image_le
      _ = G.length - j := Nat.card_Ioc j G.length
  rw [← haged.card, haged.lru_limit]
  omega

/-- **The block arrives.** -/
theorem Buffered.insertBlock (h : G.Buffered j false missing β) (hpos : 0 < j) (hj : j ≤ G.length)
    (hfits : G.length ≤ 256) : G.Buffered j true missing (β.insertBlock (G.block j)) := by
  have hroom := h.room hpos hj hfits
  have hnone := h.notBuffered (Or.inr ⟨rfl, rfl⟩) hj
  have hsame : ∀ b', β.blocks.get (G.block j).hash = some b' → b'.toSealedHeader = (G.block j).toSealedHeader := by
    intro b' hb'
    cases hnone.symm.trans hb'
  obtain ⟨history, haged⟩ := h.aged
  have haged' := (haged.insertInRoom hsame (Or.inr hroom)).1
  have hlinks' := h.links.insertBlock hsame
  rw [BlockBuffer.insertBlock_room _ (Or.inr hroom)] at haged' hlinks' ⊢
  refine ⟨⟨_, haged'⟩, hlinks', fun k x => ?_, h.above, h.own, h.below, h.entries⟩
  change (β.blocks.set (G.block j).hash (G.block j)).get k = some x ↔ _
  rw [FMap.get_set]
  split_ifs with hk
  · constructor
    · rintro ⟨rfl⟩
      exact ⟨j, Or.inr ⟨rfl, rfl⟩, hj, hk, rfl⟩
    · rintro ⟨i, -, hle, heq, rfl⟩
      rw [G.hash_inj hj hle (hk.symm.trans heq)]
  · rw [h.blocks]
    constructor
    · rintro ⟨i, hlt | ⟨-, hfalse⟩, hrest⟩
      · exact ⟨i, Or.inl hlt, hrest⟩
      · cases hfalse
    · rintro ⟨i, hlt | ⟨rfl, -⟩, hle, heq, hx⟩
      · exact ⟨i, Or.inl hlt, hle, heq, hx⟩
      · exact absurd heq hk

/-- **The witness arrives**, lacking these bytecodes. -/
theorem Buffered.insertWitness (h : G.Buffered j here none β) (hj : j ≤ G.length) (s : Finset B256) :
    G.Buffered j here (some s) (β.insertWitness (G.block j).hash (G.witness j) s) := by
  obtain ⟨history, haged⟩ := h.aged
  refine ⟨⟨history, haged.drops (BlockBuffer.insertWitness_drops β _ _ s)⟩,
    h.links.drops (BlockBuffer.insertWitness_drops β _ _ s), h.blocks, fun i hlt hle => ?_, FMap.get_set_self _ _ _,
    fun i hi => ?_, fun k s' => ?_⟩
  · refine (FMap.get_set_ne _ _ fun heq => ?_).trans (h.above i hlt hle)
    have := G.hash_inj hle hj heq
    omega
  · refine (FMap.get_set_ne _ _ fun heq => ?_).trans (h.below i hi)
    have := G.hash_inj (by omega) hj heq
    omega
  · have hempty : ∀ k, β.missingBytecodes.get k = none := by
      intro k
      cases he : β.missingBytecodes.get k with
      | none => rfl
      | some s =>
        obtain ⟨-, hsome, -⟩ := (h.entries k s).1 he
        cases hsome
    simp only [BlockBuffer.insertWitness]
    split_ifs with hne
    · rw [FMap.get_set]
      split_ifs with hk
      · constructor
        · rintro ⟨rfl⟩
          exact ⟨hk, rfl, hne⟩
        · exact fun hentry => hentry.2.1
      · rw [hempty]
        simp [hk]
    · rw [hempty]
      simp only [reduceCtorEq, false_iff, not_and]
      rintro - ⟨rfl⟩
      exact hne

/-- **A bytecode arrives**, and the block is unlocked by the last one. -/
theorem Buffered.onBytecodeReceived (h : G.Buffered j here (some s) β) {codeHash : B256} (hmem : codeHash ∈ s) :
    G.Buffered j here (some (s.erase codeHash)) (β.onBytecodeReceived codeHash).2 ∧
      (β.onBytecodeReceived codeHash).1 = if s.erase codeHash = ∅ then {(G.block j).hash} else ∅ := by
  obtain ⟨history, haged⟩ := h.aged
  have hne : s ≠ ∅ := Finset.ne_empty_of_mem hmem
  have hentry : β.missingBytecodes.get (G.block j).hash = some s := (h.entries _ s).2 ⟨rfl, rfl, hne⟩
  have hmissing : ∀ k, β.missing k = if k = (G.block j).hash then s else ∅ := h.missing_eq
  refine ⟨⟨⟨history, haged.drops (BlockBuffer.onBytecodeReceived_drops β codeHash)⟩,
    h.links.drops (BlockBuffer.onBytecodeReceived_drops β codeHash), h.blocks, h.above, h.own, h.below,
    fun k s' => ?_⟩, ?_⟩
  · simp only [BlockBuffer.onBytecodeReceived, FMap.get_retain]
    by_cases hk : k = (G.block j).hash
    · rw [hk, hentry]
      simp only [Option.bind_some, true_and, Option.some.injEq]
      split_ifs with he
      · constructor
        · intro hcontra
          cases hcontra
        · rintro ⟨rfl, hne'⟩
          exact absurd he hne'
      · simp only [Option.some.injEq]
        constructor
        · rintro rfl
          exact ⟨rfl, he⟩
        · exact And.left
    · cases he : β.missingBytecodes.get k with
      | none => simp [hk]
      | some s'' => exact absurd ((h.entries k s'').1 he).1 hk
  · ext k
    simp only [BlockBuffer.onBytecodeReceived, Finset.mem_filter, FMap.mem_keys, hmissing]
    constructor
    · rintro ⟨⟨s', hs'⟩, he⟩
      obtain ⟨rfl, -, -⟩ := (h.entries k s').1 hs'
      rw [if_pos rfl] at he
      rw [if_pos he]
      exact Finset.mem_singleton_self _
    · intro hk
      split_ifs at hk with he
      · rw [Finset.mem_singleton.1 hk]
        exact ⟨⟨s, hentry⟩, by rw [if_pos rfl]; exact he⟩
      · exact absurd hk (Finset.notMem_empty k)

/-! ## Taking the block -/

/-- a block that is not complete is not taken -/
theorem Buffered.removeBlock_incomplete (h : G.Buffered j here missing β) (hj : j ≤ G.length)
    (hnot : ¬ (here = true ∧ missing = some ∅)) :
    (β.removeBlock (G.block j).hash).1 = none ∧ G.Buffered j here missing (β.removeBlock (G.block j).hash).2 := by
  obtain ⟨history, haged⟩ := h.aged
  have hdrops := BlockBuffer.removeBlock_drops β (G.block j).hash
  have hnone : (β.removeBlock (G.block j).hash).1 = none := by
    rcases BlockBuffer.removeBlock_cases β (G.block j).hash with ⟨-, hnone⟩ | ⟨b, w, hb, hw, hm, -⟩
    · exact hnone
    · refine absurd ⟨?_, ?_⟩ hnot
      · cases here with
        | true => rfl
        | false => cases (h.notBuffered (Or.inr ⟨rfl, rfl⟩) hj).symm.trans hb
      · cases missing with
        | none => cases h.own.symm.trans hw
        | some s =>
          rw [h.missing_eq, if_pos rfl] at hm
          exact congrArg some hm
  exact ⟨hnone, h.congr ⟨history, haged.drops hdrops⟩ (h.links.drops hdrops)
    (BlockBuffer.removeBlock_same h.keyed hnone) fun k s => BlockBuffer.removeBlock_entries⟩

/-- **The complete block is taken**, and nothing is left of it. -/
theorem Buffered.removeBlock_complete (h : G.Buffered j true (some ∅) β) (hj : j ≤ G.length) :
    (β.removeBlock (G.block j).hash).1 = some (G.block j, G.witness j) ∧
      G.Buffered j false none (β.removeBlock (G.block j).hash).2 := by
  obtain ⟨history, haged⟩ := h.aged
  have hdrops := BlockBuffer.removeBlock_drops β (G.block j).hash
  have hget : β.blocks.get (G.block j).hash = some (G.block j) :=
    (h.blocks _ _).2 ⟨j, Or.inr ⟨rfl, rfl⟩, hj, rfl, rfl⟩
  have hmissing : β.missing (G.block j).hash = ∅ := by
    rw [h.missing_eq, if_pos rfl]
    rfl
  have hremovable : β.Removable (G.block j).hash := ⟨⟨_, hget⟩, ⟨_, h.own⟩, hmissing⟩
  obtain ⟨b, w, hb, hw, -, htaken, -⟩ : ∃ b w, β.blocks.get (G.block j).hash = some b ∧
      β.witnesses.get (G.block j).hash = some w ∧ β.missing (G.block j).hash = ∅ ∧
      (β.removeBlock (G.block j).hash).1 = some (b, w) ∧ _ := by
    rcases BlockBuffer.removeBlock_cases β (G.block j).hash with ⟨hnot, -⟩ | hcase
    · exact absurd hremovable hnot
    · exact hcase
  cases hget.symm.trans hb
  cases h.own.symm.trans hw
  have hempty := BlockBuffer.removeBlock_empty hremovable
  have hsame : ∀ k, k ≠ (G.block j).hash → SameAt k β (β.removeBlock (G.block j).hash).2 := by
    intro k hk
    rcases BlockBuffer.removeBlock_same_or h.keyed (G.block j).hash k with hsame | ⟨x, hx, hxk⟩
    · exact hsame
    · rw [htaken] at hx
      rw [List.mem_singleton.1 hx] at hxk
      exact absurd hxk.symm hk
  have hne : ∀ i, i ≠ j → i ≤ G.length → (G.block i).hash ≠ (G.block j).hash :=
    fun i hi hle heq => hi (G.hash_inj hle hj heq)
  refine ⟨htaken, ⟨history, haged.drops hdrops⟩, h.links.drops hdrops, fun k x => ?_, fun i hlt hle => ?_,
    hempty.witness, fun i hi => ?_, fun k s => ?_⟩
  · by_cases hk : k = (G.block j).hash
    · rw [hk, hempty.block]
      simp only [reduceCtorEq, false_iff, not_exists, not_and]
      rintro i (hlt | ⟨-, hfalse⟩) hle heq
      · exact absurd heq.symm (hne i (by omega) hle)
      · cases hfalse
    · rw [(hsame k hk).block, h.blocks]
      constructor
      · rintro ⟨i, hlt | ⟨rfl, -⟩, hle, heq, hx⟩
        · exact ⟨i, Or.inl hlt, hle, heq, hx⟩
        · exact absurd heq hk
      · rintro ⟨i, hlt | ⟨-, hfalse⟩, hrest⟩
        · exact ⟨i, Or.inl hlt, hrest⟩
        · cases hfalse
  · exact (hsame _ (hne i (by omega) hle)).witness.trans (h.above i hlt hle)
  · exact (hsame _ (hne i (by omega) (by omega))).witness.trans (h.below i hi)
  · constructor
    · intro he
      obtain ⟨-, heq, hs⟩ := (h.entries k s).1 (BlockBuffer.removeBlock_entries he)
      exact absurd (Option.some.inj heq).symm hs
    · rintro ⟨-, hcontra, -⟩
      cases hcontra

/-- **The next block**: above it all is buffered now. -/
theorem Buffered.shift (h : G.Buffered (j + 1) true (some ∅) β) : G.Buffered j false none β where
  aged := h.aged
  links := h.links
  blocks k x := by
    rw [h.blocks]
    constructor
    · rintro ⟨i, hi, hrest⟩
      exact ⟨i, Or.inl (by omega), hrest⟩
    · rintro ⟨i, hlt | ⟨-, hfalse⟩, hrest⟩
      · exact ⟨i, (Nat.eq_or_lt_of_le hlt).elim (fun heq => Or.inr ⟨heq.symm, rfl⟩) Or.inl, hrest⟩
      · cases hfalse
  above i hlt hle := by
    rcases Nat.eq_or_lt_of_le hlt with rfl | hlt
    · exact h.own
    · exact h.above i hlt hle
  own := h.below j (Nat.lt_succ_self j)
  below i hi := h.below i (by omega)
  entries k s := by
    rw [h.entries]
    constructor
    · rintro ⟨-, heq, hs⟩
      exact absurd (Option.some.inj heq).symm hs
    · rintro ⟨-, hcontra, -⟩
      cases hcontra

/-- what is below block `j` in the buffer -/
theorem Buffered.under_iff (h : G.Buffered j false missing β) (hash : B256) :
    BlockBuffer.Under β (G.block j).hash hash ↔ ∃ i, j < i ∧ i ≤ G.length ∧ hash = (G.block i).hash := by
  have hget : ∀ {hash x}, β.blocks.get hash = some x → ∃ i, j < i ∧ i ≤ G.length ∧ hash = (G.block i).hash := by
    intro hash x hx
    obtain ⟨i, hlt | ⟨-, hfalse⟩, hle, heq, -⟩ := (h.blocks _ _).1 hx
    · exact ⟨i, hlt, hle, heq⟩
    · cases hfalse
  constructor
  · intro hu
    cases hu with
    | child hb _ => exact hget hb
    | deeper hb _ => exact hget hb
  · rintro ⟨i, hlt, hle, rfl⟩
    induction i with
    | zero => exact absurd hlt (Nat.not_lt_zero j)
    | succ i ih =>
      have hb := (h.blocks _ _).2 ⟨i + 1, Or.inl hlt, hle, rfl, rfl⟩
      obtain ⟨hp, -⟩ := G.parent (i := i) hle
      rcases Nat.eq_or_lt_of_le (Nat.le_of_lt_succ hlt) with rfl | hlt
      · exact BlockBuffer.Under.child hb hp
      · exact BlockBuffer.Under.deeper hb (hp ▸ ih hlt (Nat.le_of_succ_le hle))

/-- **The blocks above are taken in order.** -/
theorem Buffered.takes (h : G.Buffered j false none β) (hj : j ≤ G.length) (ord : Enumeration B256) :
    (BlockBuffer.removeBlockWithChildren ord β (G.block j).hash).1 =
      (List.range' (j + 1) (G.length - j)).map G.pair := by
  obtain ⟨htakes, -⟩ := BlockBuffer.removeBlockWithChildren_takes ord h.keyed
    ((LinksOn.exact_iff h.keyed).2 h.links) (G.block j).hash
  refine G.ordered_eq (by omega) (fun x => ?_) htakes.nodup (htakes.ordered fun hu => ?_)
  · obtain ⟨b, w⟩ := x
    rw [htakes.exact, h.under_iff]
    constructor
    · rintro ⟨hb, hw, -, -⟩
      obtain ⟨i, hlt | ⟨-, hfalse⟩, hle, -, rfl⟩ := (h.blocks _ _).1 hb
      · cases (h.above i hlt hle).symm.trans hw
        exact ⟨i, hlt, hle, rfl⟩
      · cases hfalse
    · rintro ⟨i, hlt, hle, heq⟩
      cases heq
      refine ⟨(h.blocks _ _).2 ⟨i, Or.inl hlt, hle, rfl, rfl⟩, h.above i hlt hle, ?_, Or.inr ⟨i, hlt, hle, rfl⟩⟩
      rw [h.missing_eq]
      split_ifs <;> rfl
  · obtain ⟨i, hlt, hle, heq⟩ := (h.under_iff _).1 hu
    have := G.hash_inj hj hle heq
    omega

end Gap

end Ress
