/-
What the download futures do with responses on which a partial operation of theirs is not defined.

The partial operations are the two unwraps of the full block future, the access to the first header of a range, and
`Bytecode::new_raw`. The first two are guarded (`pollUnwrapping_eq`, `FetchHeadersRangeFuture.onResponse_panic`). The
third one comes before the hash of the code is checked, so that a peer chooses its argument.

- `downloads_panic_iff`: no future panics exactly when `new_raw` is defined on the bytes that arrive before the code
  asked for does.
-/
import Ress.Download.Futs

namespace Ress

open Polling (Poll Promises polls retry)

variable {E : Env}

namespace FetchFullBlockFuture

/-- the last statement of the loop, with its unwraps -/
def finishUnwrapping (D : DownloadEnv E) (f : FetchFullBlockFuture) : Option (Poll Block) × FetchFullBlockFuture :=
  if f.header.isSome && f.body.isSome then
    match f.header with
    | none => (some .panicked, f)
    | some header =>
      match f.body with
      | none => (some .panicked, f)
      | some body =>
        match D.validateBodyAgainstHeader body header with
        | .error _ =>
          (none, { f with
            body := none
            pendingBodyRequest := f.pendingBodyRequest.send (bodyRequest f.blockHash) })
        | .ok () => (some (.ready ⟨header, body⟩), { f with header := none, body := none })
  else (some .pending, f)

/-- `turn`, with the unwraps -/
def turnUnwrapping (D : DownloadEnv E) (found : Turn) (f : FetchFullBlockFuture) :
    Option (Poll Block) × FetchFullBlockFuture :=
  match f.pollHeader D found.header with
  | (true, f) => (none, f)
  | (false, f) =>
    match f.pollBody found.body with
    | (true, f) => (none, f)
    | (false, f) => f.finishUnwrapping D

/-- `poll`, with the unwraps -/
def pollUnwrapping (D : DownloadEnv E) : List Turn → FetchFullBlockFuture → Poll Block × FetchFullBlockFuture
  | [], f =>
    match f.turnUnwrapping D ⟨none, none⟩ with
    | (some answer, f) => (answer, f)
    | (none, f) => (.pending, f)
  | found :: turns, f =>
    match f.turnUnwrapping D found with
    | (some answer, f) => (answer, f)
    | (none, f) => pollUnwrapping D turns f

variable {D : DownloadEnv E}

/-- what is unwrapped is there -/
theorem turnUnwrapping_eq (D : DownloadEnv E) (found : Turn) (f : FetchFullBlockFuture) :
    f.turnUnwrapping D found = f.turn D found := by
  simp only [turnUnwrapping, turn]
  cases f.pollHeader D found.header with
  | mk again f₁ =>
    cases again with
    | true => rfl
    | false =>
      simp only
      cases f₁.pollBody found.body with
      | mk again f₂ =>
        cases again with
        | true => rfl
        | false =>
          simp only [finishUnwrapping]
          cases f₂.header with
          | none => rfl
          | some header =>
            cases f₂.body with
            | none => rfl
            | some body => rfl

/-- **The unwraps never panic**: with them or without, a poll is the same. -/
theorem pollUnwrapping_eq (D : DownloadEnv E) : pollUnwrapping D = poll D := by
  funext turns f
  induction turns generalizing f with
  | nil =>
    have hturn := turnUnwrapping_eq D ⟨none, none⟩ f
    unfold pollUnwrapping poll
    cases hp : f.turn D ⟨none, none⟩ with
    | mk answer f' => cases answer <;> simp only [hturn, hp]
  | cons found turns ih =>
    have hturn := turnUnwrapping_eq D found f
    unfold pollUnwrapping poll
    cases hp : f.turn D found with
    | mk answer f' => cases answer <;> simp only [hturn, hp, ih]

end FetchFullBlockFuture

namespace FetchBytecodeFuture

variable {D : DownloadEnv E} {codeHash : B256}

/-- the bytes that arrive before the code asked for are ones that `new_raw` is defined on -/
def CodesDefined (D : DownloadEnv E) (codeHash : B256) (responses : List (PeerResponse Bytes)) : Prop :=
  ∀ before bytes after, responses = before ++ .ok bytes :: after →
    (∀ earlier bytecode, .ok earlier ∈ before → D.newRaw earlier = some bytecode → D.hashCode bytecode ≠ codeHash) →
      D.newRaw bytes ≠ none

theorem onResponse_eq_panic {response : PeerResponse Bytes} :
    onResponse D codeHash response = .panic ↔ ∃ bytes, response = .ok bytes ∧ D.newRaw bytes = none := by
  simp only [onResponse]
  cases response with
  | error error => simp
  | ok bytes =>
    simp only [Except.ok.injEq, exists_eq_left']
    cases D.newRaw bytes with
    | none => simp
    | some bytecode =>
      simp only
      split_ifs <;> simp

theorem onResponse_eq_accept {response : PeerResponse Bytes} {bytecode : Bytecode} :
    onResponse D codeHash response = .accept bytecode ↔
      ∃ bytes, response = .ok bytes ∧ D.newRaw bytes = some bytecode ∧ D.hashCode bytecode = codeHash := by
  simp only [onResponse]
  cases response with
  | error error => simp
  | ok bytes =>
    simp only [Except.ok.injEq, exists_eq_left']
    cases D.newRaw bytes with
    | none => simp
    | some code =>
      simp only [Option.some.injEq]
      split_ifs with hhash
      · simp only [Polling.Verdict.accept.injEq]
        exact ⟨fun he => ⟨he, he ▸ hhash⟩, fun he => he.1⟩
      · refine iff_of_false (by simp) fun he => hhash (he.1 ▸ he.2)

theorem polls_eq_retry (responses : List (List (PeerResponse Bytes))) (f : FetchBytecodeFuture) :
    polls (poll D) responses f = poll D responses.flatten f := by
  apply Polling.polls_flatten
  · intro s
    rfl
  · intro first rest s
    simp only [poll, Polling.retry_append]
    cases retry (onResponse D s.codeHash) s.codeHash first s.pending with
    | mk answer pending => cases answer <;> rfl

/-- **The bytecode future** panics at the first bytes without a code. -/
theorem polls_panicked_iff (responses : List (List (PeerResponse Bytes))) (codeHash : B256) :
    (polls (poll D) responses (new codeHash)).1 ≠ .panicked ↔ CodesDefined D codeHash responses.flatten := by
  rw [polls_eq_retry]
  simp only [poll, new, ne_eq, Polling.retry_panicked_iff]
  constructor
  · intro hnever before bytes after hsplit hbefore hnone
    refine hnever ⟨before, .ok bytes, after, hsplit, fun earlier hmem value haccept => ?_, ?_⟩
    · obtain ⟨bytes', rfl, hraw, hhash⟩ := onResponse_eq_accept.1 haccept
      exact hbefore bytes' value hmem hraw hhash
    · exact onResponse_eq_panic.2 ⟨bytes, rfl, hnone⟩
  · rintro hdefined ⟨before, response, after, hsplit, hbefore, hpanic⟩
    obtain ⟨bytes, rfl, hnone⟩ := onResponse_eq_panic.1 hpanic
    refine hdefined before bytes after hsplit (fun earlier bytecode hmem hraw hhash => ?_) hnone
    exact hbefore _ hmem bytecode (onResponse_eq_accept.2 ⟨earlier, rfl, hraw, hhash⟩)

end FetchBytecodeFuture

/-- **Panics of the downloads**, over every sequence of responses: none of the futures panics exactly when
`Bytecode::new_raw` is defined on the bytes that arrive before the code asked for. -/
theorem downloads_panic_iff (D : DownloadEnv E) (blockHash codeHash witnessHash : B256) (request : GetHeaders)
    (ancestorCount : ℕ) (hlimit : 1 ≤ request.limit) (hcount : 1 ≤ ancestorCount)
    (turns : List (List FetchFullBlockFuture.Turn)) (responses : List (List (PeerResponse (List Header))))
    (found : List FetchFullBlockWithAncestorsFuture.Found) (codes : List (List (PeerResponse Bytes)))
    (witnesses : List (List (PeerResponse (List Bytes)))) :
    ((polls (FetchFullBlockFuture.pollUnwrapping D) turns (FetchFullBlockFuture.new blockHash)).1 ≠ .panicked ∧
      (polls (FetchHeadersRangeFuture.poll D) responses (FetchHeadersRangeFuture.new request)).1 ≠ .panicked ∧
      (polls (FetchFullBlockWithAncestorsFuture.poll D) found
        (FetchFullBlockWithAncestorsFuture.new blockHash ancestorCount)).1 ≠ .panicked ∧
      (polls (FetchBytecodeFuture.poll D) codes (FetchBytecodeFuture.new codeHash)).1 ≠ .panicked ∧
      (polls FetchWitnessFuture.poll witnesses (FetchWitnessFuture.new witnessHash)).1 ≠ .panicked) ↔
    FetchBytecodeFuture.CodesDefined D codeHash codes.flatten := by
  rw [FetchFullBlockFuture.pollUnwrapping_eq, FetchBytecodeFuture.polls_panicked_iff]
  have hfull := Polling.polls_rule FetchFullBlockFuture.poll_promises turns _
    (FetchFullBlockFuture.Fetches.new D blockHash)
  have hrange := Polling.polls_rule (FetchHeadersRangeFuture.poll_promises (D := D)) responses _
    (FetchHeadersRangeFuture.Fetches.new request)
  have hancestors := Polling.polls_rule FetchFullBlockWithAncestorsFuture.poll_promises found _
    (FetchFullBlockWithAncestorsFuture.Fetches.new D blockHash ancestorCount)
  have hwitness := Polling.polls_rule FetchWitnessFuture.poll_promises witnesses _
    (FetchWitnessFuture.Fetches.new witnessHash)
  constructor
  · rintro ⟨-, -, -, hcodes, -⟩
    exact hcodes
  · intro hcodes
    refine ⟨hfull.ne_panicked, ?_, ?_, hcodes, hwitness.ne_panicked⟩
    · exact (hrange.imp (fun _ h => h) (fun _ h => h) fun h : request.limit = 0 => by omega).ne_panicked
    · exact (hancestors.imp (fun _ h => h) (fun _ h => h) fun h : ancestorCount = 0 => by omega).ne_panicked

/-- a dropped request, then code with another hash -/
theorem downloads_panic_iff_small :
    (polls (FetchFullBlockFuture.pollUnwrapping smallDownloads) [] (FetchFullBlockFuture.new 3)).1 ≠ .panicked ∧
      (polls (FetchHeadersRangeFuture.poll smallDownloads) [[.ok []]] (FetchHeadersRangeFuture.new ⟨3, 1⟩)).1 ≠
        .panicked ∧
      (polls (FetchFullBlockWithAncestorsFuture.poll smallDownloads) [] (FetchFullBlockWithAncestorsFuture.new 3 256)).1
        ≠ .panicked ∧
      (polls (FetchBytecodeFuture.poll smallDownloads) [[.error .requestDropped, .ok [0x60]]]
        (FetchBytecodeFuture.new 7)).1 ≠ .panicked ∧
      (polls FetchWitnessFuture.poll [[.ok []]] (FetchWitnessFuture.new 3)).1 ≠ .panicked := by
  refine (downloads_panic_iff smallDownloads 3 7 3 ⟨3, 1⟩ 256 (by decide) (by decide) []
    [[.ok []]] [] [[.error .requestDropped, .ok [0x60]]] [[.ok []]]).2 ?_
  rintro before bytes after hsplit - hnone
  have hmem : .ok bytes ∈ [.error .requestDropped, (.ok [0x60] : PeerResponse Bytes)] := by
    have : [[.error .requestDropped, (.ok [0x60] : PeerResponse Bytes)]].flatten = before ++ .ok bytes :: after := hsplit
    rw [List.flatten_singleton] at this
    rw [this]
    simp
  simp only [List.mem_cons, reduceCtorEq, Except.ok.injEq, List.not_mem_nil, or_false, false_or] at hmem
  subst hmem
  revert hnone
  decide

/-- **A peer panics the bytecode future** with the two bytes of the EIP-7702 prefix. -/
theorem malformed_code_panics :
    ¬∀ (codeHash : B256) codes,
      (polls (FetchBytecodeFuture.poll smallDownloads) codes (FetchBytecodeFuture.new codeHash)).1 ≠ .panicked := by
  intro hnever
  exact hnever 7 [[.ok [0xef, 0x01]]] (by decide)

end Ress
