/-
The future for a range of full blocks (`FetchFullBlockRangeFuture` in `crates/engine/src/download/futs.rs`).

It downloads the range of headers, and then the bodies, in as many responses as it takes. The place of a body is the
number of bodies collected before it. The loop over a response checks each body against the header at the body's own
position in the response, and after a body that is rejected it goes on with the next header. The bodies that follow are
then collected one place too early, for a header they have not been checked against.

- `onResponse_paired`: one response keeps the bodies paired with their headers exactly when it is in place (`InPlace`).
- `resolves_pairs_iff`: so does a whole run, whatever peers send.
-/
import Ress.Download.Futs

namespace Ress

open Polling (Poll Promises Along polls)

variable {E : Env}

structure FullBlockRangeBodiesDownloadState where
  headers : List SealedHeader
  /-- the hashes that the request in flight asks for; a request that is replaced before it is polled is never sent -/
  fut : List B256
  bodies : List BlockBody
deriving DecidableEq, Repr

namespace FullBlockRangeBodiesDownloadState

/-- the bodies of all headers are requested -/
def new (headers : List SealedHeader) : FullBlockRangeBodiesDownloadState := ⟨headers, headers.map (·.hash), []⟩

def missing (s : FullBlockRangeBodiesDownloadState) : List B256 := (s.headers.drop s.bodies.length).map (·.hash)

def takeBlocks (s : FullBlockRangeBodiesDownloadState) : List Block × FullBlockRangeBodiesDownloadState :=
  (s.headers.zipWith (fun header body => ⟨header, body⟩) s.bodies, { s with headers := [], bodies := [] })

/-- the loop over the headers without a body; after a body that is rejected it goes on with the next header -/
def collect (D : DownloadEnv E) :
    List SealedHeader → List BlockBody → FullBlockRangeBodiesDownloadState → FullBlockRangeBodiesDownloadState
  | [], _, s => s
  | _ :: headers, [], s => collect D headers [] s
  | header :: headers, body :: pendingBodies, s =>
    match D.validateBodyAgainstHeader body header with
    | .error _ => collect D headers pendingBodies { s with fut := s.missing }
    | .ok () => collect D headers pendingBodies { s with bodies := s.bodies ++ [body] }

/-- the second state of the loop; `pending` is that the loop continues -/
def onResponse (D : DownloadEnv E) (response : PeerResponse (List BlockBody)) (s : FullBlockRangeBodiesDownloadState) :
    Poll (List Block) × FullBlockRangeBodiesDownloadState :=
  match response with
  | .error _ => (.pending, { s with fut := s.missing })
  | .ok pendingBodies =>
    if pendingBodies.isEmpty then (.pending, { s with fut := s.missing })
    -- the slice of the headers without a body
    else if s.headers.length < s.bodies.length then (.panicked, s)
    else
      let s := s.collect D (s.headers.drop s.bodies.length) pendingBodies
      let remainingHashes := s.missing
      if remainingHashes.isEmpty then
        let (blocks, s) := s.takeBlocks
        (.ready blocks, s)
      else (.pending, { s with fut := remainingHashes })

end FullBlockRangeBodiesDownloadState

inductive FullBlockRangeDownloadState where
  | headers (fut : FetchHeadersRangeFuture)
  | bodies (state : FullBlockRangeBodiesDownloadState)

structure FetchFullBlockRangeFuture where
  request : GetHeaders
  state : FullBlockRangeDownloadState

namespace FetchFullBlockRangeFuture

def new (request : GetHeaders) : FetchFullBlockRangeFuture := ⟨request, .headers (FetchHeadersRangeFuture.new request)⟩

/-- what a poll finds ready: responses for the headers, then responses for the bodies -/
structure Found where
  headers : List (PeerResponse (List Header))
  bodies : List (PeerResponse (List BlockBody))

def pollBodies (D : DownloadEnv E) (responses : List (PeerResponse (List BlockBody))) (f : FetchFullBlockRangeFuture)
    (state : FullBlockRangeBodiesDownloadState) : Poll (List Block) × FetchFullBlockRangeFuture :=
  let (answer, state) := polls (FullBlockRangeBodiesDownloadState.onResponse D) responses state
  (answer, { f with state := .bodies state })

def poll (D : DownloadEnv E) (found : Found) (f : FetchFullBlockRangeFuture) :
    Poll (List Block) × FetchFullBlockRangeFuture :=
  match f.state with
  | .headers fut =>
    match fut.poll D found.headers with
    | (.ready headers, _) => f.pollBodies D found.bodies (.new headers)
    | (.pending, fut) => (.pending, { f with state := .headers fut })
    | (.panicked, fut) => (.panicked, { f with state := .headers fut })
  | .bodies state => f.pollBodies D found.bodies state

end FetchFullBlockRangeFuture

/-! ## Bodies and their places -/

namespace FullBlockRangeBodiesDownloadState

def Validated (D : DownloadEnv E) (header : SealedHeader) (body : BlockBody) : Prop :=
  D.validateBodyAgainstHeader body header = .ok ()

instance (D : DownloadEnv E) (header : SealedHeader) (body : BlockBody) : Decidable (Validated D header body) :=
  inferInstanceAs (Decidable (_ = _))

/-- the i-th body belongs to the i-th header -/
structure Paired (D : DownloadEnv E) (headers : List SealedHeader) (bodies : List BlockBody) : Prop where
  length_le : bodies.length ≤ headers.length
  validated : ∀ (i : ℕ) header body, headers[i]? = some header → bodies[i]? = some body → Validated D header body

/-- how many of the first `j` bodies of a response are valid for the header at their position -/
def validBefore (D : DownloadEnv E) (headers : List SealedHeader) (pendingBodies : List BlockBody) (j : ℕ) : ℕ :=
  ((headers.zip pendingBodies).take j).countP fun x => decide (Validated D x.1 x.2)

/-- A body of a response that is valid for the header at its position is also valid for the header as many positions
earlier as there are invalid bodies before it. Where no body is invalid before a valid one, this says nothing. -/
def InPlace (D : DownloadEnv E) (headers : List SealedHeader) (pendingBodies : List BlockBody) : Prop :=
  ∀ (j : ℕ) header body place, headers[j]? = some header → pendingBodies[j]? = some body → Validated D header body →
    headers[validBefore D headers pendingBodies j]? = some place → Validated D place body

/-- the bodies that the loop collects -/
def accepted (D : DownloadEnv E) : List SealedHeader → List BlockBody → List BlockBody
  | header :: headers, body :: pendingBodies =>
    if Validated D header body then body :: accepted D headers pendingBodies else accepted D headers pendingBodies
  | _, _ => []

variable {D : DownloadEnv E} {headers : List SealedHeader} {bodies pendingBodies : List BlockBody}
  {s : FullBlockRangeBodiesDownloadState}

theorem accepted_nil (D : DownloadEnv E) (headers : List SealedHeader) : accepted D headers [] = [] := by
  cases headers <;> rfl

theorem validBefore_succ (D : DownloadEnv E) (header : SealedHeader) (headers : List SealedHeader) (body : BlockBody)
    (pendingBodies : List BlockBody) (j : ℕ) :
    validBefore D (header :: headers) (body :: pendingBodies) (j + 1) =
      validBefore D headers pendingBodies j + if Validated D header body then 1 else 0 := by
  simp [validBefore, List.countP_cons]

theorem collect_spec (D : DownloadEnv E) (headers : List SealedHeader) (pendingBodies : List BlockBody)
    (s : FullBlockRangeBodiesDownloadState) :
    (s.collect D headers pendingBodies).headers = s.headers ∧
      (s.collect D headers pendingBodies).bodies = s.bodies ++ accepted D headers pendingBodies := by
  induction headers generalizing pendingBodies s with
  | nil => simp [collect, accepted]
  | cons header headers ih =>
    cases pendingBodies with
    | nil =>
      have hrest := ih [] s
      rw [accepted_nil] at hrest
      exact hrest
    | cons body pendingBodies =>
      simp only [collect, accepted]
      split
      · rename_i error herror
        obtain ⟨hheaders, hbodies⟩ := ih pendingBodies { s with fut := s.missing }
        exact ⟨hheaders, by rw [hbodies, if_neg (by simp [Validated, herror])]⟩
      · rename_i hvalid
        obtain ⟨hheaders, hbodies⟩ := ih pendingBodies { s with bodies := s.bodies ++ [body] }
        have hvalid : Validated D header body := hvalid
        exact ⟨hheaders, by rw [hbodies, if_pos hvalid, List.append_assoc, List.singleton_append]⟩

theorem accepted_length (D : DownloadEnv E) (headers : List SealedHeader) (pendingBodies : List BlockBody) :
    (accepted D headers pendingBodies).length ≤ headers.length := by
  induction headers generalizing pendingBodies with
  | nil => simp [accepted]
  | cons header headers ih =>
    cases pendingBodies with
    | nil => simp [accepted]
    | cons body pendingBodies =>
      have := ih pendingBodies
      simp only [accepted]
      split_ifs <;> simp only [List.length_cons] <;> omega

/-- **Where a body is collected**: at the place given by the valid bodies before it. -/
theorem accepted_getElem? {n : ℕ} {body : BlockBody} :
    (accepted D headers pendingBodies)[n]? = some body ↔
      ∃ j header, headers[j]? = some header ∧ pendingBodies[j]? = some body ∧ Validated D header body ∧
        validBefore D headers pendingBodies j = n := by
  induction headers generalizing pendingBodies n with
  | nil => simp [accepted]
  | cons header headers ih =>
    cases pendingBodies with
    | nil => simp [accepted]
    | cons first pendingBodies =>
      simp only [accepted]
      constructor
      · intro hget
        by_cases hvalid : Validated D header first
        · rw [if_pos hvalid] at hget
          cases n with
          | zero =>
            cases hget
            exact ⟨0, header, rfl, rfl, hvalid, rfl⟩
          | succ n =>
            obtain ⟨j, header', hheader, hbody, hv, hbefore⟩ := ih.1 hget
            refine ⟨j + 1, header', hheader, hbody, hv, ?_⟩
            rw [validBefore_succ, if_pos hvalid, hbefore]
        · rw [if_neg hvalid] at hget
          obtain ⟨j, header', hheader, hbody, hv, hbefore⟩ := ih.1 hget
          refine ⟨j + 1, header', hheader, hbody, hv, ?_⟩
          rw [validBefore_succ, if_neg hvalid, hbefore, Nat.add_zero]
      · rintro ⟨j, header', hheader, hbody, hv, rfl⟩
        cases j with
        | zero =>
          cases hheader
          cases hbody
          rw [if_pos hv]
          rfl
        | succ j =>
          have hget := ih.2 ⟨j, header', hheader, hbody, hv, rfl⟩
          rw [validBefore_succ]
          split_ifs with hvalid
          · exact hget
          · exact hget

/-- **One response** keeps the bodies paired exactly when it is in place. -/
theorem paired_append (h : Paired D headers bodies) :
    Paired D headers (bodies ++ accepted D (headers.drop bodies.length) pendingBodies) ↔
      InPlace D (headers.drop bodies.length) pendingBodies := by
  constructor
  · intro hpaired j header body place hheader hbody hv hplace
    have hget := accepted_getElem?.2 ⟨j, header, hheader, hbody, hv, rfl⟩
    rw [List.getElem?_drop] at hplace
    apply hpaired.validated _ place body hplace
    rwa [List.getElem?_append_right (Nat.le_add_right _ _), Nat.add_sub_cancel_left]
  · intro hplaces
    have hlength := accepted_length D (headers.drop bodies.length) pendingBodies
    have hle := h.length_le
    rw [List.length_drop] at hlength
    refine ⟨by rw [List.length_append]; omega, fun i place body hplace hget => ?_⟩
    rcases Nat.lt_or_ge i bodies.length with hi | hi
    · rw [List.getElem?_append_left hi] at hget
      exact h.validated i place body hplace hget
    · rw [List.getElem?_append_right hi] at hget
      obtain ⟨j, header, hheader, hbody, hv, hbefore⟩ := accepted_getElem?.1 hget
      apply hplaces j header body place hheader hbody hv
      rw [hbefore, List.getElem?_drop]
      rwa [Nat.add_sub_cancel' hi]

/-! ## One response -/

/-- the bodies that a response adds -/
def received (D : DownloadEnv E) (response : PeerResponse (List BlockBody)) (s : FullBlockRangeBodiesDownloadState) :
    List BlockBody :=
  match response with
  | .error _ => []
  | .ok pendingBodies => accepted D (s.headers.drop s.bodies.length) pendingBodies

theorem received_length (h : s.bodies.length ≤ s.headers.length) (response : PeerResponse (List BlockBody)) :
    (s.bodies ++ received D response s).length ≤ s.headers.length := by
  rw [List.length_append]
  cases response with
  | error error => exact h
  | ok pendingBodies =>
    have := accepted_length D (s.headers.drop s.bodies.length) pendingBodies
    rw [List.length_drop] at this
    simp only [received]
    omega

/-- **What one response does.** -/
theorem onResponse_spec (h : s.bodies.length ≤ s.headers.length) (response : PeerResponse (List BlockBody)) :
    Promises
      (fun s' => s'.headers = s.headers ∧ s'.bodies = s.bodies ++ received D response s ∧ s'.fut = s'.missing)
      (fun blocks => (s.bodies ++ received D response s).length = s.headers.length ∧
        blocks = s.headers.zipWith (fun header body => ⟨header, body⟩) (s.bodies ++ received D response s))
      False (s.onResponse D response) := by
  cases response with
  | error error => exact ⟨rfl, (List.append_nil _).symm, rfl⟩
  | ok pendingBodies =>
    obtain ⟨hheaders, hbodies⟩ := collect_spec D (s.headers.drop s.bodies.length) pendingBodies s
    have hlength := received_length (D := D) h (.ok pendingBodies)
    simp only [received] at hlength ⊢
    simp only [onResponse]
    split_ifs with hempty hslice hremaining
    · rw [List.isEmpty_iff.1 hempty, accepted_nil, List.append_nil]
      exact ⟨rfl, rfl, rfl⟩
    · omega
    · simp only [missing, hheaders, hbodies, List.isEmpty_iff, List.map_eq_nil_iff, List.drop_eq_nil_iff] at hremaining
      refine ⟨by omega, ?_⟩
      simp only [takeBlocks, hheaders, hbodies]
    · exact ⟨hheaders, hbodies, rfl⟩

/-- every response handled so far was in place -/
structure Collects (D : DownloadEnv E) (headers : List SealedHeader) (s : FullBlockRangeBodiesDownloadState) : Prop where
  headers_eq : s.headers = headers
  fut_eq : s.fut = s.missing
  paired : Paired D headers s.bodies

/-- a body is at the wrong place -/
structure Misplaced (D : DownloadEnv E) (headers : List SealedHeader) (s : FullBlockRangeBodiesDownloadState) :
    Prop where
  headers_eq : s.headers = headers
  length_le : s.bodies.length ≤ headers.length
  not_paired : ¬Paired D headers s.bodies

/-- what the future should resolve to -/
def Resolves (D : DownloadEnv E) (headers : List SealedHeader) (blocks : List Block) : Prop :=
  blocks.map (·.toSealedHeader) = headers ∧ ∀ block ∈ blocks, Validated D block.toSealedHeader block.body

/-- the bodies of a response are in place -/
def ResponseInPlace (D : DownloadEnv E) (response : PeerResponse (List BlockBody))
    (s : FullBlockRangeBodiesDownloadState) : Prop :=
  ∀ pendingBodies, response = .ok pendingBodies → InPlace D (s.headers.drop s.bodies.length) pendingBodies

theorem Collects.new (D : DownloadEnv E) (headers : List SealedHeader) : Collects D headers (new headers) where
  headers_eq := rfl
  fut_eq := rfl
  paired := ⟨Nat.zero_le _, fun i header body _ h => by simp [FullBlockRangeBodiesDownloadState.new] at h⟩

theorem zip_headers (hlength : bodies.length = headers.length) :
    (headers.zipWith (fun header body => (⟨header, body⟩ : Block)) bodies).map (·.toSealedHeader) = headers := by
  rw [List.map_zipWith]
  apply List.ext_getElem
  · simp [hlength]
  · intro i hi hi'
    simp

theorem zip_validated (hlength : bodies.length = headers.length) :
    (∀ block ∈ headers.zipWith (fun header body => (⟨header, body⟩ : Block)) bodies,
      Validated D block.toSealedHeader block.body) ↔ Paired D headers bodies := by
  constructor
  · intro h
    refine ⟨hlength.le, fun i header body hheader hbody => ?_⟩
    apply h ⟨header, body⟩
    apply List.mem_of_getElem? (i := i)
    rw [List.getElem?_zipWith, hheader, hbody]
  · intro h block hmem
    obtain ⟨i, hi⟩ := List.getElem?_of_mem hmem
    rw [List.getElem?_zipWith] at hi
    cases hheader : headers[i]? with
    | none => simp [hheader] at hi
    | some header =>
      cases hbody : bodies[i]? with
      | none => simp [hheader, hbody] at hi
      | some body =>
        rw [hheader, hbody] at hi
        cases hi
        exact h.validated i header body hheader hbody

theorem received_paired (h : Collects D headers s) (response : PeerResponse (List BlockBody)) :
    Paired D headers (s.bodies ++ received D response s) ↔ ResponseInPlace D response s := by
  cases response with
  | error error =>
    simp only [received, List.append_nil]
    exact iff_of_true h.paired fun _ he => by cases he
  | ok pendingBodies =>
    have hiff : _ ↔ InPlace D (headers.drop s.bodies.length) pendingBodies := paired_append h.paired
    simp only [received, h.headers_eq]
    refine hiff.trans ⟨fun hplace bodies he => ?_, fun hplace => ?_⟩
    · cases he
      rw [h.headers_eq]
      exact hplace
    · rw [← h.headers_eq]
      exact hplace pendingBodies rfl

/-- **A response in place** keeps the bodies paired. -/
theorem onResponse_promises (response : PeerResponse (List BlockBody)) (s : FullBlockRangeBodiesDownloadState)
    (h : Collects D headers s) (hplace : ResponseInPlace D response s) :
    Promises (Collects D headers) (Resolves D headers) False (s.onResponse D response) := by
  have hheaders := h.headers_eq
  have hpaired := (received_paired h response).2 hplace
  apply (onResponse_spec (hheaders ▸ h.paired.length_le) response).imp
  · rintro s' ⟨hsame, hbodies, hfut⟩
    exact ⟨hsame.trans hheaders, hfut, hbodies ▸ hpaired⟩
  · rintro blocks ⟨hlength, rfl⟩
    rw [hheaders] at hlength ⊢
    exact ⟨zip_headers hlength, (zip_validated hlength).2 hpaired⟩
  · exact id

/-- a body at the wrong place stays there -/
theorem misplaced_promises (response : PeerResponse (List BlockBody)) (s : FullBlockRangeBodiesDownloadState)
    (hheaders : s.headers = headers) (hle : s.bodies.length ≤ headers.length)
    (hnot : ¬Paired D headers (s.bodies ++ received D response s)) :
    Promises (Misplaced D headers) (fun blocks => ¬Resolves D headers blocks) False (s.onResponse D response) := by
  have hlength := received_length (D := D) (hheaders ▸ hle) response
  apply (onResponse_spec (hheaders ▸ hle) response).imp
  · rintro s' ⟨hsame, hbodies, -⟩
    exact ⟨hsame.trans hheaders, by rw [hbodies, ← hheaders]; exact hlength, hbodies ▸ hnot⟩
  · rintro blocks ⟨hlength, rfl⟩ hresolves
    rw [hheaders] at hlength hresolves
    exact hnot ((zip_validated hlength).1 hresolves.2)
  · exact id

theorem not_paired_append (h : bodies.length ≤ headers.length) (hnot : ¬Paired D headers bodies)
    (more : List BlockBody) : ¬Paired D headers (bodies ++ more) := by
  intro hpaired
  refine hnot ⟨h, fun i header body hheader hbody => hpaired.validated i header body hheader ?_⟩
  obtain ⟨hi, -⟩ := List.getElem?_eq_some_iff.1 hbody
  rwa [List.getElem?_append_left hi]

/-- **The responses of a poll**: the bodies stay paired exactly when each response is in place. -/
theorem polls_promises (responses : List (PeerResponse (List BlockBody))) (h : Collects D headers s)
    (hplace : Along (onResponse D) (ResponseInPlace D) responses s) :
    Promises (Collects D headers) (Resolves D headers) False (polls (onResponse D) responses s) :=
  Polling.polls_along onResponse_promises responses s h hplace

theorem misplaced_polls (responses : List (PeerResponse (List BlockBody))) (h : Misplaced D headers s) :
    Promises (Misplaced D headers) (fun blocks => ¬Resolves D headers blocks) False
      (polls (onResponse D) responses s) := by
  apply Polling.polls_rule (fun response s hs => ?_) responses s h
  apply misplaced_promises response s hs.headers_eq hs.length_le
  exact not_paired_append hs.length_le hs.not_paired _

theorem polls_misplaced (responses : List (PeerResponse (List BlockBody))) (h : Collects D headers s)
    (hplace : ¬Along (onResponse D) (ResponseInPlace D) responses s) :
    Promises (Misplaced D headers) (fun blocks => ¬Resolves D headers blocks) False
      (polls (onResponse D) responses s) := by
  apply Polling.polls_not_along onResponse_promises (fun response s hs hnot => ?_) (fun response s hs => ?_)
    responses s h hplace
  · apply misplaced_promises response s hs.headers_eq hs.paired.length_le
    exact fun hpaired => hnot ((received_paired hs response).1 hpaired)
  · apply misplaced_promises response s hs.headers_eq hs.length_le
    exact not_paired_append hs.length_le hs.not_paired _

end FullBlockRangeBodiesDownloadState

/-! ## Runs -/

namespace FetchFullBlockRangeFuture

open FullBlockRangeBodiesDownloadState (Paired Collects Misplaced Resolves ResponseInPlace)

/-- the state in which a poll handles responses for the bodies -/
def bodiesState (D : DownloadEnv E) (found : Found) (f : FetchFullBlockRangeFuture) :
    Option FullBlockRangeBodiesDownloadState :=
  match f.state with
  | .headers fut =>
    match fut.poll D found.headers with
    | (.ready headers, _) => some (.new headers)
    | _ => none
  | .bodies state => some state

/-- each response for bodies that the poll handles is in place -/
def InPlace (D : DownloadEnv E) (found : Found) (f : FetchFullBlockRangeFuture) : Prop :=
  ∀ state, f.bodiesState D found = some state →
    Along (FullBlockRangeBodiesDownloadState.onResponse D) (ResponseInPlace D) found.bodies state

/-- the i-th body collected belongs to the i-th header -/
def Aligned (D : DownloadEnv E) (f : FetchFullBlockRangeFuture) : Prop :=
  ∀ state, f.state = .bodies state → Paired D state.headers state.bodies

/-- what the future for the headers resolves to, on the same responses -/
def headersAnswer (D : DownloadEnv E) (found : List Found) (fut : FetchHeadersRangeFuture) : Poll (List SealedHeader) :=
  (polls (FetchHeadersRangeFuture.poll D) (found.map (·.headers)) fut).1

/-- the blocks of the headers -/
def ResolvesTo (D : DownloadEnv E) (answer : Poll (List SealedHeader)) (blocks : List Block) : Prop :=
  ∃ headers, answer = .ready headers ∧ Resolves D headers blocks

variable {D : DownloadEnv E} {headers : List SealedHeader} {request : GetHeaders} {f : FetchFullBlockRangeFuture}

/-- the bodies of these headers are being downloaded, and the state has the property -/
def Downloads (P : FullBlockRangeBodiesDownloadState → Prop) (f : FetchFullBlockRangeFuture) : Prop :=
  ∃ state, f.state = .bodies state ∧ P state

theorem pollBodies_promises {P : FullBlockRangeBodiesDownloadState → Prop} {Post : List Block → Prop}
    {responses : List (PeerResponse (List BlockBody))} {state : FullBlockRangeBodiesDownloadState}
    (h : Promises P Post False (polls (FullBlockRangeBodiesDownloadState.onResponse D) responses state)) :
    Promises (Downloads P) Post False (f.pollBodies D responses state) := by
  simp only [pollBodies]
  cases hp : polls (FullBlockRangeBodiesDownloadState.onResponse D) responses state with
  | mk answer state' =>
    rw [hp] at h
    cases answer with
    | ready blocks => exact h
    | pending => exact ⟨state', rfl, h⟩
    | panicked => exact h

/-- **Polls for the bodies.** -/
theorem poll_bodies (found : Found) (f : FetchFullBlockRangeFuture) (h : Downloads (Collects D headers) f) :
    (InPlace D found f → Promises (Downloads (Collects D headers)) (Resolves D headers) False (poll D found f)) ∧
      (¬InPlace D found f →
        Promises (Downloads (Misplaced D headers)) (fun blocks => ¬Resolves D headers blocks) False
          (poll D found f)) := by
  obtain ⟨state, hstate, hcollects⟩ := h
  simp only [InPlace, bodiesState, poll, hstate, Option.some.injEq, forall_eq']
  constructor
  · intro hplace
    exact pollBodies_promises (FullBlockRangeBodiesDownloadState.polls_promises found.bodies hcollects hplace)
  · intro hplace
    exact pollBodies_promises (FullBlockRangeBodiesDownloadState.polls_misplaced found.bodies hcollects hplace)

theorem poll_misplaced (found : Found) (f : FetchFullBlockRangeFuture) (h : Downloads (Misplaced D headers) f) :
    Promises (Downloads (Misplaced D headers)) (fun blocks => ¬Resolves D headers blocks) False (poll D found f) := by
  obtain ⟨state, hstate, hmisplaced⟩ := h
  simp only [poll, hstate]
  exact pollBodies_promises (FullBlockRangeBodiesDownloadState.misplaced_polls found.bodies hmisplaced)

theorem Downloads.aligned (h : Downloads (Collects D headers) f) : Aligned D f := by
  obtain ⟨state, hstate, hcollects⟩ := h
  intro state' hstate'
  rw [hstate] at hstate'
  cases hstate'
  rw [hcollects.headers_eq]
  exact hcollects.paired

theorem Downloads.not_aligned (h : Downloads (Misplaced D headers) f) : ¬Aligned D f := by
  obtain ⟨state, hstate, hmisplaced⟩ := h
  intro haligned
  have := haligned state hstate
  rw [hmisplaced.headers_eq] at this
  exact hmisplaced.not_paired this

theorem polls_bodies (found : List Found) (f : FetchFullBlockRangeFuture) (h : Downloads (Collects D headers) f) :
    (Along (poll D) (InPlace D) found f →
        Promises (Downloads (Collects D headers)) (Resolves D headers) False (polls (poll D) found f)) ∧
      (¬Along (poll D) (InPlace D) found f →
        Promises (Downloads (Misplaced D headers)) (fun blocks => ¬Resolves D headers blocks) False
          (polls (poll D) found f)) := by
  constructor
  · exact Polling.polls_along (fun i s hs => (poll_bodies i s hs).1) found f h
  · exact Polling.polls_not_along (fun i s hs => (poll_bodies i s hs).1) (fun i s hs => (poll_bodies i s hs).2)
      poll_misplaced found f h

/-- the poll that finds the headers goes on with the bodies -/
theorem poll_ready (request : GetHeaders) {found : Found} {fut fut' : FetchHeadersRangeFuture}
    (h : fut.poll D found.headers = (.ready headers, fut')) :
    poll D found ⟨request, .headers fut⟩ = poll D found ⟨request, .bodies (.new headers)⟩ ∧
      (InPlace D found ⟨request, .headers fut⟩ ↔ InPlace D found ⟨request, .bodies (.new headers)⟩) := by
  constructor
  · simp only [poll, h]
    rfl
  · simp only [InPlace, bodiesState, h]

/-- **A run of polls**, by the polls that wait for the headers. -/
theorem polls_headers (found : List Found) (fut : FetchHeadersRangeFuture) (h : fut.Fetches request) :
    (Along (poll D) (InPlace D) found ⟨request, .headers fut⟩ →
        Promises (Aligned D) (ResolvesTo D (headersAnswer D found fut)) (request.limit = 0)
          (polls (poll D) found ⟨request, .headers fut⟩)) ∧
      (¬Along (poll D) (InPlace D) found ⟨request, .headers fut⟩ →
        Promises (fun f => ¬Aligned D f) (fun blocks => ¬ResolvesTo D (headersAnswer D found fut) blocks) False
          (polls (poll D) found ⟨request, .headers fut⟩)) := by
  induction found generalizing fut with
  | nil =>
    refine ⟨fun _ => ?_, fun hnot => absurd trivial hnot⟩
    change Aligned D _
    intro state hstate
    cases hstate
  | cons found rest ih =>
    have hpromise := FetchHeadersRangeFuture.poll_promises (D := D) found.headers fut h
    cases hp : fut.poll D found.headers with
    | mk answer fut' =>
      rw [hp] at hpromise
      have hvacuous : answer = .pending ∨ answer = .panicked → InPlace D found ⟨request, .headers fut⟩ := by
        intro hanswer state hstate
        simp only [bodiesState, hp] at hstate
        rcases hanswer with rfl | rfl
        · cases hstate
        · cases hstate
      cases answer with
      | pending =>
        have hstep : poll D found ⟨request, .headers fut⟩ = (.pending, ⟨request, .headers fut'⟩) := by
          simp only [poll, hp]
        have hanswer : headersAnswer D (found :: rest) fut = headersAnswer D rest fut' := by
          simp only [headersAnswer, List.map_cons, polls, hp]
        have hplace := hvacuous (Or.inl rfl)
        simp only [Along, polls, hstep, hanswer, hplace, true_and]
        exact ih fut' hpromise
      | panicked =>
        have hstep : poll D found ⟨request, .headers fut⟩ = (.panicked, ⟨request, .headers fut'⟩) := by
          simp only [poll, hp]
        have hplace := hvacuous (Or.inr rfl)
        simp only [Along, polls, hstep, hplace, true_and]
        exact ⟨fun _ => hpromise, fun hnot => absurd trivial hnot⟩
      | ready headers =>
        obtain ⟨hstep, hplace⟩ := poll_ready request hp
        have hanswer : headersAnswer D (found :: rest) fut = .ready headers := by
          simp only [headersAnswer, List.map_cons, polls, hp]
        have hruns : polls (poll D) (found :: rest) ⟨request, .headers fut⟩ =
            polls (poll D) (found :: rest) ⟨request, .bodies (.new headers)⟩ := by
          simp only [polls, hstep]
        have halong : Along (poll D) (InPlace D) (found :: rest) ⟨request, .headers fut⟩ ↔
            Along (poll D) (InPlace D) (found :: rest) ⟨request, .bodies (.new headers)⟩ := by
          simp only [Along, hstep, hplace]
        have hstart : Downloads (Collects D headers) ⟨request, .bodies (.new headers)⟩ :=
          ⟨_, rfl, Collects.new D headers⟩
        obtain ⟨hgood, hbad⟩ := polls_bodies (found :: rest) _ hstart
        rw [hruns, halong, hanswer]
        constructor
        · intro hok
          exact (hgood hok).imp (fun _ => Downloads.aligned) (fun blocks hb => ⟨headers, rfl, hb⟩) False.elim
        · intro hnot
          apply (hbad hnot).imp (fun _ => Downloads.not_aligned) ?_ id
          rintro blocks hb ⟨headers', he, hresolves⟩
          cases he
          exact hb hresolves

/-- **Pairing headers and bodies**, over every request and every sequence of responses: the bodies collected belong to
the headers at their places, and the blocks the future resolves to are those of the headers with valid bodies, exactly
when every response for bodies was in place when it was handled. -/
theorem resolves_pairs_iff (D : DownloadEnv E) (request : GetHeaders) (found : List Found) :
    Promises (Aligned D) (ResolvesTo D (headersAnswer D found (FetchHeadersRangeFuture.new request)))
        (request.limit = 0) (polls (poll D) found (new request)) ↔
      Along (poll D) (InPlace D) found (new request) := by
  obtain ⟨hgood, hbad⟩ := polls_headers (D := D) found (FetchHeadersRangeFuture.new request)
    (FetchHeadersRangeFuture.Fetches.new request)
  refine ⟨fun hpromise => ?_, hgood⟩
  by_contra hnot
  have hfails := hbad hnot
  simp only [new] at hpromise
  cases hp : polls (poll D) found ⟨request, .headers (FetchHeadersRangeFuture.new request)⟩ with
  | mk answer f =>
    rw [hp] at hpromise hfails
    cases answer with
    | ready blocks => exact hfails hpromise
    | pending => exact hfails hpromise
    | panicked => exact hfails

end FetchFullBlockRangeFuture

/-- a body is as long as the number of its block -/
def numberedDownloads : DownloadEnv smallEnv :=
  { smallDownloads with
    validateBodyAgainstHeader := fun body header =>
      if body.transactions.length = header.number then .ok () else .error (.other "transactions") }

/-- **A rejected body shifts the next one.** Of two bodies, the first is rejected; the second one is collected in its
place, and the first block is resolved with the body of the second. -/
theorem rejected_body_shifts :
    ¬Promises (FetchFullBlockRangeFuture.Aligned numberedDownloads)
      (FetchFullBlockRangeFuture.ResolvesTo numberedDownloads
        (FetchFullBlockRangeFuture.headersAnswer numberedDownloads
          [⟨[.ok [⟨2, 2, 0, 0, []⟩, ⟨1, 1, 0, 0, []⟩]], [.ok [⟨[], []⟩, ⟨[[7]], []⟩], .ok [⟨[[8]], []⟩]]⟩]
          (FetchHeadersRangeFuture.new ⟨3, 2⟩)))
      ((⟨3, 2⟩ : GetHeaders).limit = 0)
      (polls (FetchFullBlockRangeFuture.poll numberedDownloads)
        [⟨[.ok [⟨2, 2, 0, 0, []⟩, ⟨1, 1, 0, 0, []⟩]], [.ok [⟨[], []⟩, ⟨[[7]], []⟩], .ok [⟨[[8]], []⟩]]⟩]
        (FetchFullBlockRangeFuture.new ⟨3, 2⟩)) := by
  intro hpromise
  have hanswer : polls (FetchFullBlockRangeFuture.poll numberedDownloads)
      [⟨[.ok [⟨2, 2, 0, 0, []⟩, ⟨1, 1, 0, 0, []⟩]], [.ok [⟨[], []⟩, ⟨[[7]], []⟩], .ok [⟨[[8]], []⟩]]⟩]
      (FetchFullBlockRangeFuture.new ⟨3, 2⟩) =
      (.ready [⟨⟨⟨2, 2, 0, 0, []⟩, 3⟩, ⟨[[7]], []⟩⟩, ⟨⟨⟨1, 1, 0, 0, []⟩, 2⟩, ⟨[[8]], []⟩⟩],
        ⟨⟨3, 2⟩, .bodies ⟨[], [2], []⟩⟩) := by
    rfl
  rw [hanswer] at hpromise
  obtain ⟨headers, -, -, hvalidated⟩ := hpromise
  have := hvalidated _ List.mem_cons_self
  revert this
  decide

end Ress
