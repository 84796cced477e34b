/-
Honest responses to requests for headers.

An honest peer answers a request for `limit` headers with those of the chain from the start block towards genesis: as
many as were asked for, or all of them where the chain is shorter. `FetchHeadersRangeFuture` refuses a response that is
shorter than the request, and makes the request again.

- `onResponse_honest_iff`: an honest response is accepted exactly when the chain is as long as the request.
- `honest_ranges_iff`: so the future for a finalized block and its 256 ancestors resolves, once peers answer honestly,
  exactly when the block is at height 256 or above. Below, it asks again for ever.
-/
import Ress.Download.Futs

namespace Ress

open Polling (Poll Slot Promises Along polls retry fetchPart fetchPart_covers fetchPart_found)

variable {E : Env} {D : DownloadEnv E}

/-! ## Chains -/

/-- a chain of valid headers from genesis on -/
structure ValidChain (D : DownloadEnv E) (chain : List Header) : Prop where
  genesis : ∀ header, chain.head? = some header → header.number = 0
  valid : ∀ header ∈ chain, E.consensus.validateHeader (D.sealSlow header) = .ok ()
  parents : chain.IsChain fun parent child =>
    E.consensus.validateHeaderAgainstParent (D.sealSlow child) (D.sealSlow parent) = .ok ()

/-- the headers from a block of the chain towards genesis, `limit` of them where there are so many -/
def honestRange (chain : List Header) (start : Header) (limit : ℕ) : List Header :=
  (chain.take (start.number + 1)).reverse.take limit

variable {chain : List Header} {header parent : Header}

/-- the place of a header is its number -/
theorem ValidChain.getElem_number (h : ValidChain D chain) {i : ℕ} (hi : i < chain.length) : chain[i].number = i := by
  induction i with
  | zero =>
    apply h.genesis
    rw [List.head?_eq_getElem?, List.getElem?_eq_getElem hi]
  | succ i ih =>
    have hagainst := List.isChain_iff_getElem.1 h.parents i hi
    have hnumber := (E.consensus.against_parent _ _ hagainst).2
    rw [show chain[i + 1].number = chain[i].number + 1 from hnumber, ih (by omega)]

theorem ValidChain.getElem?_of_mem (h : ValidChain D chain) (hmem : header ∈ chain) :
    chain[header.number]? = some header := by
  obtain ⟨i, hi, rfl⟩ := List.getElem_of_mem hmem
  rw [h.getElem_number hi, List.getElem?_eq_getElem hi]

theorem ValidChain.parent_hash (h : ValidChain D chain) (hheader : header ∈ chain) (hparent : parent ∈ chain)
    (hnumber : header.number = parent.number + 1) : header.parentHash = D.hashHeader parent := by
  have hh := h.getElem?_of_mem hheader
  have hp := h.getElem?_of_mem hparent
  rw [hnumber] at hh
  obtain ⟨hi, hheader⟩ := List.getElem?_eq_some_iff.1 hh
  obtain ⟨hi', hparent⟩ := List.getElem?_eq_some_iff.1 hp
  have hagainst := List.isChain_iff_getElem.1 h.parents parent.number hi
  have := (E.consensus.against_parent _ _ hagainst).1
  rw [hheader, hparent] at this
  exact this

theorem honestRange_length (h : ValidChain D chain) (hmem : header ∈ chain) (limit : ℕ) :
    (honestRange chain header limit).length = min limit (header.number + 1) := by
  obtain ⟨hi, -⟩ := List.getElem?_eq_some_iff.1 (h.getElem?_of_mem hmem)
  simp only [honestRange, List.length_take, List.length_reverse]
  omega

theorem honestRange_head (h : ValidChain D chain) (hmem : header ∈ chain) {limit : ℕ} (hlimit : 1 ≤ limit) :
    (honestRange chain header limit).head? = some header := by
  have hget := h.getElem?_of_mem hmem
  simp only [honestRange, List.head?_take, List.head?_reverse]
  rw [if_neg (by omega), List.getLast?_take, if_neg (by omega), Nat.add_sub_cancel, hget]
  rfl

theorem honestRange_reverse (chain : List Header) (header : Header) (limit : ℕ) :
    ∃ n, (honestRange chain header limit).reverse = (chain.take (header.number + 1)).drop n := by
  refine ⟨(chain.take (header.number + 1)).length - limit, ?_⟩
  rw [honestRange, List.take_reverse, List.reverse_reverse]

/-- an honest response is a valid range -/
theorem honestRange_valid (h : ValidChain D chain) (header : Header) (limit : ℕ) :
    D.validateHeaderRange ((honestRange chain header limit).map D.sealSlow).reverse = .ok () := by
  obtain ⟨n, hreverse⟩ := honestRange_reverse chain header limit
  rw [← List.map_reverse, hreverse, D.range_ok]
  constructor
  · intro sealed hsealed
    obtain ⟨x, hx, rfl⟩ := List.mem_map.1 hsealed
    exact h.valid x (List.mem_of_mem_take (List.mem_of_mem_drop hx))
  · rw [List.isChain_map]
    exact (h.parents.take _).drop _

namespace FetchHeadersRangeFuture

/-- a response shorter than the request is refused -/
theorem onResponse_short {request : GetHeaders} {headers : List Header} (h : headers.length < request.limit) :
    onResponse D request (.ok headers) = .refuse := by
  simp only [onResponse, if_pos h]

theorem onResponse_honest (h : ValidChain D chain) (hmem : header ∈ chain) {limit : ℕ} (hlimit : 1 ≤ limit)
    (hle : limit ≤ header.number + 1) :
    onResponse D ⟨D.hashHeader header, limit⟩ (.ok (honestRange chain header limit)) =
      .accept ((honestRange chain header limit).map D.sealSlow) := by
  have hlength := honestRange_length h hmem limit
  have hvalid := honestRange_valid h header limit
  have hhead := honestRange_head h hmem hlimit
  simp only [onResponse]
  rw [if_neg (by omega)]
  cases hrange : honestRange chain header limit with
  | nil =>
    rw [hrange] at hhead
    cases hhead
  | cons first rest =>
    rw [hrange] at hhead hvalid
    cases hhead
    simp only [List.map_cons] at hvalid ⊢
    rw [hvalid]
    simp [DownloadEnv.sealSlow]

/-- **An honest response** is accepted exactly when the chain is as long as the request. -/
theorem onResponse_honest_iff (h : ValidChain D chain) (hmem : header ∈ chain) {limit : ℕ} (hlimit : 1 ≤ limit) :
    onResponse D ⟨D.hashHeader header, limit⟩ (.ok (honestRange chain header limit)) =
      .accept ((honestRange chain header limit).map D.sealSlow) ↔ limit ≤ header.number + 1 := by
  refine ⟨fun haccept => ?_, onResponse_honest h hmem hlimit⟩
  by_contra hlt
  have hlength := honestRange_length h hmem limit
  have hshort : (honestRange chain header limit).length < (⟨D.hashHeader header, limit⟩ : GetHeaders).limit := by
    simp only
    omega
  rw [onResponse_short hshort] at haccept
  cases haccept

end FetchHeadersRangeFuture

/-! ## The finalized block -/

namespace FetchFullBlockFuture

variable {f : FetchFullBlockFuture} {body : BlockBody}

/-- the header that has arrived is this one -/
def Known (D : DownloadEnv E) (header : Header) (f : FetchFullBlockFuture) : Prop :=
  ∀ found, f.header = some found → found = D.sealSlow header

/-- no other header with the hash of this one is sent -/
def Turn.Clean (D : DownloadEnv E) (header : Header) (turn : Turn) : Prop :=
  ∀ first rest, turn.header = some (.ok (first :: rest)) → D.hashHeader first = D.hashHeader header → first = header

theorem pollHeader_known (h : Fetches D (D.hashHeader header) f) (hknown : Known D header f) {found : Turn}
    (hclean : found.Clean D header) : Known D header (f.pollHeader D found.header).2 := by
  intro sealed hsealed
  simp only [pollHeader, h.hash_eq] at hsealed
  obtain ⟨-, hnew⟩ := fetchPart_covers (headerRequest (D.hashHeader header))
    (fun response : PeerResponse (List Header) => onHeaderResponse D (D.hashHeader header) (response.map List.head?))
    found.header h.header
  rcases hnew sealed hsealed with hold | ⟨response, hfound, haccept⟩
  · exact hknown sealed hold
  · cases response with
    | error error => cases haccept
    | ok headers =>
      cases headers with
      | nil => cases haccept
      | cons first rest =>
        simp only [onHeaderResponse, Except.map, List.head?_cons] at haccept
        split_ifs at haccept with hhash
        cases haccept
        rw [hclean first rest hfound hhash]

/-- a turn in which no other header with the hash is sent -/
theorem turn_known (h : Fetches D (D.hashHeader header) f) (hknown : Known D header f) {found : Turn}
    (hclean : found.Clean D header) :
    Known D header (f.turn D found).2 ∧
      ∀ block, (f.turn D found).1 = some (.ready block) → block.toSealedHeader = D.sealSlow header := by
  have hheader := pollHeader_known h hknown hclean
  simp only [turn]
  cases hph : f.pollHeader D found.header with
  | mk again f₁ =>
    rw [hph] at hheader
    cases again with
    | true => exact ⟨hheader, fun _ he => by cases he⟩
    | false =>
      simp only
      have hsame : (f₁.pollBody found.body).2.header = f₁.header := rfl
      cases hpb : f₁.pollBody found.body with
      | mk again f₂ =>
        rw [hpb] at hsame
        have hknown₂ : Known D header f₂ := fun sealed hs => hheader sealed (hsame ▸ hs)
        cases again with
        | true => exact ⟨hknown₂, fun _ he => by cases he⟩
        | false =>
          simp only
          cases hgh : f₂.header with
          | none => exact ⟨hknown₂, fun _ he => by cases he⟩
          | some sealed =>
            cases hgb : f₂.body with
            | none => exact ⟨hknown₂, fun _ he => by cases he⟩
            | some body =>
              simp only
              cases D.validateBodyAgainstHeader body sealed with
              | error error => exact ⟨fun x hx => hknown₂ x (hgh ▸ hx), fun _ he => by cases he⟩
              | ok _ =>
                refine ⟨fun _ hx => (by cases hx), fun block he => ?_⟩
                cases he
                exact hknown₂ sealed hgh

theorem poll_known (turns : List Turn) (f : FetchFullBlockFuture) (h : Fetches D (D.hashHeader header) f)
    (hknown : Known D header f) (hclean : ∀ found ∈ turns, found.Clean D header) :
    Known D header (poll D turns f).2 ∧
      ∀ block, (poll D turns f).1 = .ready block → block.toSealedHeader = D.sealSlow header := by
  induction turns generalizing f with
  | nil =>
    have hnothing : Turn.Clean D header ⟨none, none⟩ := fun _ _ he => by cases he
    obtain ⟨hnext, hready⟩ := turn_known h hknown hnothing
    simp only [poll]
    cases ht : f.turn D ⟨none, none⟩ with
    | mk answer f' =>
      rw [ht] at hnext hready
      cases answer with
      | none => exact ⟨hnext, fun _ he => by cases he⟩
      | some answer => exact ⟨hnext, fun block he => hready block (congrArg some he)⟩
  | cons found turns ih =>
    obtain ⟨hnext, hready⟩ := turn_known h hknown (hclean found List.mem_cons_self)
    simp only [poll]
    rcases h.turn found with ⟨f', hturn, hf'⟩ | ⟨answer, f', hturn, -⟩
    · rw [hturn] at hnext ⊢
      exact ih f' hf' hnext fun found hmem => hclean found (List.mem_cons_of_mem _ hmem)
    · rw [hturn] at hnext hready ⊢
      exact ⟨hnext, fun block he => hready block (congrArg some he)⟩

/-- an honest peer answers with the header and its body -/
def honestTurn (header : Header) (body : BlockBody) : Turn := ⟨some (.ok [header]), some (.ok [body])⟩

/-- **An honest turn** finishes the block, unless a body that came earlier does not belong to the header. -/
theorem turn_honest (h : Fetches D (D.hashHeader header) f) (hknown : Known D header f) (body : BlockBody) :
    if D.validateBodyAgainstHeader (f.body.getD body) (D.sealSlow header) = .ok () then
      (f.turn D (honestTurn header body)).1 = some (.ready ⟨D.sealSlow header, f.body.getD body⟩)
    else (f.turn D (honestTurn header body)).1 = none ∧ (f.turn D (honestTurn header body)).2.body = none := by
  have hheader : onHeaderResponse D (D.hashHeader header) (.ok (some header)) = some (D.sealSlow header) := by
    simp [onHeaderResponse, DownloadEnv.sealSlow]
  obtain ⟨slot, hslot⟩ := fetchPart_found (headerRequest (D.hashHeader header))
    (fun response : PeerResponse (List Header) => onHeaderResponse D (D.hashHeader header) (response.map List.head?))
    (.ok [header]) hheader h.header
  obtain ⟨slot', hslot'⟩ := fetchPart_found (bodyRequest (D.hashHeader header))
    (fun response : PeerResponse (List BlockBody) => onBodyResponse (response.map List.head?)) (.ok [body]) rfl h.body
  have hsealed : f.header.getD (D.sealSlow header) = D.sealSlow header := by
    cases hh : f.header with
    | none => rfl
    | some sealed => exact hknown sealed hh
  rw [hsealed] at hslot
  simp only [turn, honestTurn, pollHeader, pollBody, h.hash_eq, hslot, hslot']
  cases D.validateBodyAgainstHeader (f.body.getD body) (D.sealSlow header) with
  | ok _ => simp
  | error error => simp

/-- **Two honest turns** finish the block, whatever came before. -/
theorem poll_honest (h : Fetches D (D.hashHeader header) f) (hknown : Known D header f)
    (hbody : D.validateBodyAgainstHeader body (D.sealSlow header) = .ok ()) :
    ∃ block f', poll D [honestTurn header body, honestTurn header body] f = (.ready block, f') ∧
      block.toSealedHeader = D.sealSlow header := by
  have hclean : (honestTurn header body).Clean D header := by
    intro first rest he _
    cases he
    rfl
  have hturn := turn_honest h hknown body
  have hknown₁ := (turn_known h hknown hclean).1
  have hnext := h.turn (honestTurn header body)
  simp only [poll]
  cases ht : f.turn D (honestTurn header body) with
  | mk answer f₁ =>
    rw [ht] at hturn hknown₁ hnext
    simp only at hturn hknown₁
    split_ifs at hturn with hvalid
    · rw [hturn]
      exact ⟨_, f₁, rfl, rfl⟩
    · obtain ⟨rfl, hnone⟩ := hturn
      -- the body is requested again, and the honest one arrives
      have hf₁ : Fetches D (D.hashHeader header) f₁ := by
        rcases hnext with ⟨f', he, hf'⟩ | ⟨answer, f', he, -⟩
        · cases he
          exact hf'
        · cases he
      have hturn₂ := turn_honest hf₁ hknown₁ body
      rw [hnone, Option.getD_none, if_pos hbody] at hturn₂
      simp only
      cases ht₂ : f₁.turn D (honestTurn header body) with
      | mk answer f₂ =>
        rw [ht₂] at hturn₂
        simp only at hturn₂
        rw [hturn₂]
        exact ⟨_, f₂, rfl, rfl⟩

end FetchFullBlockFuture

namespace FetchFullBlockWithAncestorsFuture

open FetchFullBlockFuture (honestTurn)

variable {f : FetchFullBlockWithAncestorsFuture} {body : BlockBody} {count : ℕ}

/-- the header that has arrived for the block is this one -/
def Known (D : DownloadEnv E) (header : Header) (f : FetchFullBlockWithAncestorsFuture) : Prop :=
  match f.state with
  | .fullBlock fut => fut.Known D header
  | .ancestors block _ => block.toSealedHeader = D.sealSlow header

/-- no other header with the hash of this one is sent for the block -/
def Found.Clean (D : DownloadEnv E) (header : Header) (found : Found) : Prop :=
  ∀ turn ∈ found.turns, turn.Clean D header

/-- peers answer every request honestly; a body that came earlier may make the future ask for the body once more -/
def honestFound (chain : List Header) (header parent : Header) (body : BlockBody) (count : ℕ) : Found :=
  ⟨[honestTurn header body, honestTurn header body], [.ok (honestRange chain parent count)]⟩

theorem pollAncestors_known {block : Block} (hblock : block.toSealedHeader = D.sealSlow header)
    (responses : List (PeerResponse (List Header))) (fut : FetchHeadersRangeFuture) :
    Known D header (f.pollAncestors D responses block fut).2 := by
  simp only [pollAncestors]
  cases fut.poll D responses with
  | mk answer fut' => cases answer <;> exact hblock

theorem poll_known (found : Found) (h : Fetches D (D.hashHeader header) count f) (hknown : Known D header f)
    (hclean : found.Clean D header) : Known D header (poll D found f).2 := by
  have hstate := h.state
  simp only [Known] at hknown
  simp only [poll]
  cases hs : f.state with
  | ancestors block fut =>
    rw [hs] at hknown
    exact pollAncestors_known hknown found.responses fut
  | fullBlock fut =>
    rw [hs] at hstate hknown
    obtain ⟨hnext, hready⟩ := FetchFullBlockFuture.poll_known found.turns fut hstate hknown hclean
    simp only
    cases hp : FetchFullBlockFuture.poll D found.turns fut with
    | mk answer fut' =>
      rw [hp] at hnext hready
      cases answer with
      | pending => exact hnext
      | panicked => exact hnext
      | ready block => exact pollAncestors_known (hready block rfl) found.responses _

/-- a run of polls in which no other header with the hash is sent -/
theorem polls_known (before : List Found) (hclean : ∀ found ∈ before, found.Clean D header)
    (hpending : polls (poll D) before (new (D.hashHeader header) count) = (.pending, f)) :
    Fetches D (D.hashHeader header) count f ∧ Known D header f := by
  have hpoll : ∀ found f', Fetches D (D.hashHeader header) count f' ∧ Known D header f' → found.Clean D header →
      Promises (fun f' => Fetches D (D.hashHeader header) count f' ∧ Known D header f') (fun _ => True) True
        (poll D found f') := by
    intro found f' h hfound
    have hfetches := poll_promises found f' h.1
    have hknown := poll_known found h.1 h.2 hfound
    cases hp : poll D found f' with
    | mk answer f'' =>
      rw [hp] at hfetches hknown
      cases answer with
      | ready value => exact trivial
      | pending => exact ⟨hfetches, hknown⟩
      | panicked => exact trivial
  have hrun := Polling.polls_along hpoll before (new (D.hashHeader header) count)
    ⟨Fetches.new D _ _, fun _ he => by cases he⟩ (Polling.along_of_mem (fun found hmem _ => hclean found hmem) _)
  rw [hpending] at hrun
  exact hrun

/-- the range below the block, on an honest response -/
theorem pollAncestors_honest (h : ValidChain D chain) (hparent : parent ∈ chain) {block : Block}
    (hblock : block.parentHash = D.hashHeader parent) (hcount : 1 ≤ count) {fut : FetchHeadersRangeFuture}
    (hfut : fut.Fetches ⟨block.parentHash, count⟩) :
    (∃ value, (f.pollAncestors D [.ok (honestRange chain parent count)] block fut).1 = .ready value) ↔
      count ≤ parent.number + 1 := by
  have hrequest := hfut.request_eq
  rw [hblock] at hrequest
  simp only [pollAncestors, FetchHeadersRangeFuture.poll, retry, hrequest]
  rcases Nat.lt_or_ge (parent.number + 1) count with hlt | hle
  · have hlength := honestRange_length h hparent count
    have hshort : (honestRange chain parent count).length < (⟨D.hashHeader parent, count⟩ : GetHeaders).limit := by
      simp only
      omega
    rw [FetchHeadersRangeFuture.onResponse_short hshort]
    refine iff_of_false ?_ (by omega)
    rintro ⟨value, he⟩
    cases he
  · rw [FetchHeadersRangeFuture.onResponse_honest h hparent hcount hle]
    exact iff_of_true ⟨_, rfl⟩ hle

/-- **The finalized block**: once peers answer honestly, the future resolves exactly when there are enough blocks below
the block. -/
theorem poll_honest_iff (h : ValidChain D chain) (hheader : header ∈ chain) (hparent : parent ∈ chain)
    (hnumber : header.number = parent.number + 1)
    (hbody : D.validateBodyAgainstHeader body (D.sealSlow header) = .ok ()) (hcount : 1 ≤ count)
    (hf : Fetches D (D.hashHeader header) count f) (hknown : Known D header f) :
    (∃ value, (poll D (honestFound chain header parent body count) f).1 = .ready value) ↔ count ≤ header.number := by
  have hhash := h.parent_hash hheader hparent hnumber
  have hstate := hf.state
  simp only [Known] at hknown
  simp only [poll, honestFound]
  rw [hnumber]
  cases hs : f.state with
  | ancestors block fut =>
    rw [hs] at hstate hknown
    have hblock : block.parentHash = D.hashHeader parent := by rw [hknown]; exact hhash
    exact pollAncestors_honest h hparent hblock hcount hstate.2
  | fullBlock fut =>
    rw [hs] at hstate hknown
    obtain ⟨block, fut', hready, hsealed⟩ := FetchFullBlockFuture.poll_honest hstate hknown hbody
    have hblock : block.parentHash = D.hashHeader parent := by rw [hsealed]; exact hhash
    simp only [hready, hf.count_eq]
    exact pollAncestors_honest h hparent hblock hcount (FetchHeadersRangeFuture.Fetches.new _)

end FetchFullBlockWithAncestorsFuture

/-- **Honest headers are accepted** exactly where the chain below the start block is as long as the request, for every
valid chain, every start block and every limit. So the finalized block with its 256 ancestors is resolved, once peers
answer honestly, exactly from height 256 on, whatever they sent before. -/
theorem honest_ranges_iff {chain : List Header} (hchain : ValidChain D chain) :
    (∀ start ∈ chain, ∀ limit, 1 ≤ limit →
      (FetchHeadersRangeFuture.onResponse D ⟨D.hashHeader start, limit⟩ (.ok (honestRange chain start limit)) =
        .accept ((honestRange chain start limit).map D.sealSlow) ↔ limit ≤ start.number + 1)) ∧
      ∀ header ∈ chain, ∀ parent ∈ chain, header.number = parent.number + 1 →
        ∀ body, D.validateBodyAgainstHeader body (D.sealSlow header) = .ok () →
          ∀ before f, (∀ found ∈ before, FetchFullBlockWithAncestorsFuture.Found.Clean D header found) →
            polls (FetchFullBlockWithAncestorsFuture.poll D) before
              (FetchFullBlockWithAncestorsFuture.new (D.hashHeader header) 256) = (.pending, f) →
            ((∃ value, (FetchFullBlockWithAncestorsFuture.poll D
              (FetchFullBlockWithAncestorsFuture.honestFound chain header parent body 256) f).1 = .ready value) ↔
              256 ≤ header.number) := by
  constructor
  · intro start hstart limit hlimit
    exact FetchHeadersRangeFuture.onResponse_honest_iff hchain hstart hlimit
  · intro header hheader parent hparent hnumber body hbody before f hclean hpending
    obtain ⟨hf, hknown⟩ := FetchFullBlockWithAncestorsFuture.polls_known before hclean hpending
    exact FetchFullBlockWithAncestorsFuture.poll_honest_iff hchain hheader hparent hnumber hbody (by decide) hf hknown

/-- genesis and two blocks on it -/
def shortChain : List Header := [⟨0, 0, 0, 0, []⟩, ⟨1, 1, 0, 0, []⟩, ⟨2, 2, 0, 0, []⟩]

theorem shortChain_valid : ValidChain smallDownloads shortChain where
  genesis header h := by
    cases h
    rfl
  valid header _ := rfl
  parents := by decide

/-- the two headers below block 2 are accepted where two were asked for -/
theorem honest_ranges_iff_short :
    FetchHeadersRangeFuture.onResponse smallDownloads ⟨2, 2⟩ (.ok (honestRange shortChain ⟨1, 1, 0, 0, []⟩ 2)) =
      .accept ((honestRange shortChain ⟨1, 1, 0, 0, []⟩ 2).map smallDownloads.sealSlow) :=
  ((honest_ranges_iff shortChain_valid).1 ⟨1, 1, 0, 0, []⟩ (by decide) 2 (by decide)).2 (by decide)

/-- **A finalized block near genesis is never resolved.** Block 2 has only two ancestors; the honest answer to the
request for 256 of them is refused. -/
theorem short_chain_refused :
    ValidChain smallDownloads shortChain ∧
      FetchHeadersRangeFuture.onResponse smallDownloads ⟨2, 256⟩ (.ok (honestRange shortChain ⟨1, 1, 0, 0, []⟩ 256)) =
        .refuse ∧
      (FetchFullBlockWithAncestorsFuture.poll smallDownloads
        (FetchFullBlockWithAncestorsFuture.honestFound shortChain ⟨2, 2, 0, 0, []⟩ ⟨1, 1, 0, 0, []⟩ ⟨[], []⟩ 256)
        (FetchFullBlockWithAncestorsFuture.new 3 256)).1 = .pending :=
  ⟨shortChain_valid, by decide +kernel⟩

end Ress
