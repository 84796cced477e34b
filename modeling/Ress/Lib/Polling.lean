/-
Futures that are polled, and the requests they make. General library: nothing here names a program.

A poll is given what the requests in flight are ready with, and answers with a value, or that it is pending, or panics.
`polls` is a run of polls: it ends with the first one that is not pending. The run rule is `polls_rule`.

- `Slot`: the requests of one kind: the one in flight, and how many were made and answered so far. A request that is
  overwritten while it is in flight, or made while one is in flight, breaks `Waits` and `Idle` for good.
- `fetchPart`: one of several parts that a future downloads side by side.
- `retry`: a future that makes its one request again until a response is accepted.
-/
import Mathlib.Tactic

namespace Polling

variable {I S T Q R : Type*}

inductive Poll (T : Type*) where
  | ready (value : T)
  | pending
  | panicked
deriving DecidableEq, Repr

/-- what a poll answers with -/
def Poll.value : Poll T → Option T
  | .ready value => some value
  | .pending => none
  | .panicked => none

/-! ## Requests -/

structure Slot (Q : Type*) where
  inFlight : Option Q
  made : ℕ
  answered : ℕ
deriving DecidableEq, Repr

namespace Slot

def empty : Slot Q := ⟨none, 0, 0⟩

/-- make a request -/
def send (s : Slot Q) (request : Q) : Slot Q := { s with inFlight := some request, made := s.made + 1 }

/-- the request in flight has been answered -/
def take (s : Slot Q) : Slot Q := { s with inFlight := none, answered := s.answered + 1 }

/-- exactly one request is outstanding -/
def Waits (s : Slot Q) (request : Q) : Prop := s.inFlight = some request ∧ s.made = s.answered + 1

/-- no request is outstanding -/
def Idle (s : Slot Q) : Prop := s.inFlight = none ∧ s.made = s.answered

theorem idle_empty : (empty : Slot Q).Idle := ⟨rfl, rfl⟩

variable {s : Slot Q} {request : Q}

theorem Idle.send (h : s.Idle) (request : Q) : (s.send request).Waits request :=
  ⟨rfl, congrArg (· + 1) h.2⟩

theorem Waits.take (h : s.Waits request) : s.take.Idle := ⟨rfl, h.2⟩

theorem Waits.again (h : s.Waits request) : (s.take.send request).Waits request := h.take.send request

end Slot

/-! ## Parts -/

/-- the part is there and no request is outstanding, or exactly one request for it is -/
def Slot.Covers (slot : Slot Q) (request : Q) (part : Option T) : Prop :=
  (part = none → slot.Waits request) ∧ (part ≠ none → slot.Idle)

/-- poll the request for a part: a response that is accepted becomes the part, after any other the request is made again;
answers whether it was -/
def fetchPart (request : Q) (accept : R → Option T) (found : Option R) (slot : Slot Q) (part : Option T) :
    Bool × Slot Q × Option T :=
  match slot.inFlight, found with
  | some _, some response =>
    match (accept response).or part with
    | none => (true, slot.take.send request, none)
    | some value => (false, slot.take, some value)
  | _, _ => (false, slot, part)

/-- **Fetching a part** keeps it covered, and a new part was accepted. -/
theorem fetchPart_covers (request : Q) (accept : R → Option T) (found : Option R) {slot : Slot Q} {part : Option T}
    (h : slot.Covers request part) :
    (fetchPart request accept found slot part).2.1.Covers request (fetchPart request accept found slot part).2.2 ∧
      ∀ value, (fetchPart request accept found slot part).2.2 = some value →
        part = some value ∨ ∃ response, found = some response ∧ accept response = some value := by
  have hsame : ∀ found : Option R, slot.Covers request part ∧
      ∀ value, part = some value → part = some value ∨ ∃ response, found = some response ∧ accept response = some value :=
    fun _ => ⟨h, fun _ hv => Or.inl hv⟩
  simp only [fetchPart]
  cases hr : slot.inFlight with
  | none => exact hsame found
  | some inFlight =>
    cases found with
    | none => exact hsame none
    | some response =>
      -- a request in flight is for a missing part
      have hnone : part = none := by
        by_contra hne
        rw [(h.2 hne).1] at hr
        cases hr
      have hwaits := h.1 hnone
      subst hnone
      simp only [Option.or_none]
      cases ha : accept response with
      | none => exact ⟨⟨fun _ => hwaits.again, fun hne => absurd rfl hne⟩, fun value hv => by cases hv⟩
      | some value =>
        refine ⟨⟨fun hc => (by cases hc), fun _ => hwaits.take⟩, fun value' hv => Or.inr ⟨response, rfl, ?_⟩⟩
        exact ha.trans hv

/-- a response that is accepted brings the part, unless it is there -/
theorem fetchPart_found (request : Q) (accept : R → Option T) (response : R) {value : T}
    (haccept : accept response = some value) {slot : Slot Q} {part : Option T} (h : slot.Covers request part) :
    ∃ slot', fetchPart request accept (some response) slot part = (false, slot', some (part.getD value)) := by
  simp only [fetchPart]
  cases part with
  | none =>
    rw [(h.1 rfl).1]
    simp only [haccept, Option.some_or]
    exact ⟨_, rfl⟩
  | some old =>
    rw [(h.2 (by simp)).1]
    exact ⟨slot, rfl⟩

/-! ## Runs -/

/-- poll until the first answer that is not pending -/
def polls (poll : I → S → Poll T × S) : List I → S → Poll T × S
  | [], s => (.pending, s)
  | i :: is, s =>
    match poll i s with
    | (.pending, s) => polls poll is s
    | answer => answer

/-- what a poll promises: a value meets `Post`, a state after a pending poll meets `Inv`, and a panic needs `Panics` -/
def Promises (Inv : S → Prop) (Post : T → Prop) (Panics : Prop) : Poll T × S → Prop
  | (.ready value, _) => Post value
  | (.pending, s) => Inv s
  | (.panicked, _) => Panics

/-- **Run rule.** What every poll promises from a state that meets the invariant, every run of polls promises. -/
theorem polls_rule {poll : I → S → Poll T × S} {Inv : S → Prop} {Post : T → Prop} {Panics : Prop}
    (hpoll : ∀ i s, Inv s → Promises Inv Post Panics (poll i s)) (is : List I) (s : S) (hs : Inv s) :
    Promises Inv Post Panics (polls poll is s) := by
  induction is generalizing s with
  | nil => exact hs
  | cons i is ih =>
    have h := hpoll i s hs
    simp only [polls]
    cases hp : poll i s with
    | mk answer s' =>
      rw [hp] at h
      cases answer with
      | ready value => exact h
      | pending => exact ih s' h
      | panicked => exact h

/-- every poll of the run meets `Ok` in the state in which it is made -/
def Along (poll : I → S → Poll T × S) (Ok : I → S → Prop) : List I → S → Prop
  | [], _ => True
  | i :: is, s =>
    Ok i s ∧ match poll i s with
      | (.pending, s) => Along poll Ok is s
      | _ => True

theorem Promises.imp {Inv Inv' : S → Prop} {Post Post' : T → Prop} {Panics Panics' : Prop} (hinv : ∀ s, Inv s → Inv' s)
    (hpost : ∀ value, Post value → Post' value) (hpanics : Panics → Panics') {result : Poll T × S}
    (h : Promises Inv Post Panics result) : Promises Inv' Post' Panics' result := by
  obtain ⟨answer, s⟩ := result
  cases answer with
  | ready value => exact hpost value h
  | pending => exact hinv s h
  | panicked => exact hpanics h

/-- the run rule where only polls that meet `Ok` keep the invariant -/
theorem polls_along {poll : I → S → Poll T × S} {Ok : I → S → Prop} {Inv : S → Prop} {Post : T → Prop} {Panics : Prop}
    (hpoll : ∀ i s, Inv s → Ok i s → Promises Inv Post Panics (poll i s)) (is : List I) (s : S) (hs : Inv s)
    (hok : Along poll Ok is s) : Promises Inv Post Panics (polls poll is s) := by
  induction is generalizing s with
  | nil => exact hs
  | cons i is ih =>
    obtain ⟨hi, hrest⟩ := hok
    have h := hpoll i s hs hi
    simp only [polls]
    cases hp : poll i s with
    | mk answer s' =>
      rw [hp] at h hrest
      cases answer with
      | ready value => exact h
      | pending => exact ih s' h hrest
      | panicked => exact h

theorem along_of_mem {poll : I → S → Poll T × S} {Ok : I → S → Prop} {is : List I} (h : ∀ i ∈ is, ∀ s, Ok i s) (s : S) :
    Along poll Ok is s := by
  induction is generalizing s with
  | nil => trivial
  | cons i is ih =>
    refine ⟨h i List.mem_cons_self s, ?_⟩
    cases hp : poll i s with
    | mk answer s' =>
      cases answer with
      | ready value => trivial
      | pending => exact ih (fun i' hi => h i' (List.mem_cons_of_mem i hi)) s'
      | panicked => trivial

/-- **A poll that does not meet `Ok`** breaks what the run promises, where such a poll reaches a state that no later
poll leaves. -/
theorem polls_not_along {poll : I → S → Poll T × S} {Ok : I → S → Prop} {Inv Bad : S → Prop} {Post Post' : T → Prop}
    {Panics : Prop} (hpoll : ∀ i s, Inv s → Ok i s → Promises Inv Post Panics (poll i s))
    (hbreak : ∀ i s, Inv s → ¬Ok i s → Promises Bad Post' False (poll i s))
    (hbad : ∀ i s, Bad s → Promises Bad Post' False (poll i s)) (is : List I) (s : S) (hs : Inv s)
    (hok : ¬Along poll Ok is s) : Promises Bad Post' False (polls poll is s) := by
  induction is generalizing s with
  | nil => exact absurd trivial hok
  | cons i is ih =>
    simp only [polls]
    by_cases hi : Ok i s
    · have h := hpoll i s hs hi
      simp only [Along, hi, true_and] at hok
      cases hp : poll i s with
      | mk answer s' =>
        rw [hp] at h hok
        cases answer with
        | ready value => exact absurd trivial hok
        | pending => exact ih s' h hok
        | panicked => exact absurd trivial hok
    · have h := hbreak i s hs hi
      cases hp : poll i s with
      | mk answer s' =>
        rw [hp] at h
        cases answer with
        | ready value => exact h
        | pending => exact polls_rule hbad is s' h
        | panicked => exact h

theorem Promises.ne_panicked {Inv : S → Prop} {Post : T → Prop} {result : Poll T × S}
    (h : Promises Inv Post False result) : result.1 ≠ .panicked := by
  obtain ⟨answer, s⟩ := result
  cases answer with
  | ready value => simp
  | pending => simp
  | panicked => exact h.elim

/-- polls that take one response after the other: a run of them takes all the responses in turn -/
theorem polls_flatten {poll : List R → S → Poll T × S} (hnil : ∀ s, poll [] s = (.pending, s))
    (happend : ∀ first rest s, poll (first ++ rest) s = match poll first s with
      | (.pending, s) => poll rest s
      | answer => answer) (responses : List (List R)) (s : S) :
    polls poll responses s = poll responses.flatten s := by
  induction responses generalizing s with
  | nil => exact (hnil s).symm
  | cons first rest ih =>
    rw [List.flatten_cons, happend]
    simp only [polls]
    cases hp : poll first s with
    | mk answer s' =>
      cases answer with
      | ready value => rfl
      | pending => exact ih s'
      | panicked => rfl

/-! ## Retrying -/

/-- what a future makes of a response -/
inductive Verdict (T : Type*) where
  | accept (value : T)
  | refuse
  | panic
deriving DecidableEq, Repr

/-- poll the request in flight, and make it again each time its response is refused -/
def retry (judge : R → Verdict T) (request : Q) : List R → Slot Q → Poll T × Slot Q
  | [], slot => (.pending, slot)
  | response :: responses, slot =>
    match judge response with
    | .accept value => (.ready value, slot.take)
    | .panic => (.panicked, slot.take)
    | .refuse => retry judge request responses (slot.take.send request)

/-- **Retrying.** The request stays outstanding, exactly once, until a response is accepted. -/
theorem retry_promises (judge : R → Verdict T) (request : Q) (responses : List R) (slot : Slot Q)
    (h : slot.Waits request) :
    Promises (fun slot => slot.Waits request) (fun value => ∃ response, judge response = .accept value)
      (∃ response, judge response = .panic) (retry judge request responses slot) := by
  induction responses generalizing slot with
  | nil => exact h
  | cons response responses ih =>
    simp only [retry]
    cases hj : judge response with
    | accept value => exact ⟨response, hj⟩
    | panic => exact ⟨response, hj⟩
    | refuse => exact ih _ h.again

theorem retry_append (judge : R → Verdict T) (request : Q) (first rest : List R) (slot : Slot Q) :
    retry judge request (first ++ rest) slot = match retry judge request first slot with
      | (.pending, slot) => retry judge request rest slot
      | answer => answer := by
  induction first generalizing slot with
  | nil => rfl
  | cons response first ih =>
    simp only [List.cons_append, retry]
    cases judge response with
    | accept value => rfl
    | panic => rfl
    | refuse => exact ih _

/-- retrying panics at a response that is judged so before any is accepted -/
theorem retry_panicked_iff (judge : R → Verdict T) (request : Q) (responses : List R) (slot : Slot Q) :
    (retry judge request responses slot).1 = .panicked ↔
      ∃ before response after, responses = before ++ response :: after ∧
        (∀ earlier ∈ before, ∀ value, judge earlier ≠ .accept value) ∧ judge response = .panic := by
  induction responses generalizing slot with
  | nil => simp [retry]
  | cons response responses ih =>
    simp only [retry]
    cases hj : judge response with
    | panic => exact iff_of_true rfl ⟨[], response, responses, rfl, by simp, hj⟩
    | accept value =>
      refine iff_of_false (by simp) ?_
      rintro ⟨before, response', after, hsplit, hbefore, hpanic⟩
      cases before with
      | nil =>
        cases hsplit
        rw [hj] at hpanic
        cases hpanic
      | cons earlier before =>
        cases hsplit
        exact hbefore response List.mem_cons_self value hj
    | refuse =>
      rw [ih]
      constructor
      · rintro ⟨before, response', after, rfl, hbefore, hpanic⟩
        refine ⟨response :: before, response', after, rfl, fun earlier hmem value => ?_, hpanic⟩
        rcases List.mem_cons.1 hmem with rfl | hmem
        · simp [hj]
        · exact hbefore earlier hmem value
      · rintro ⟨before, response', after, hsplit, hbefore, hpanic⟩
        cases before with
        | nil =>
          cases hsplit
          rw [hj] at hpanic
          cases hpanic
        | cons earlier before =>
          cases hsplit
          exact ⟨before, response', after, rfl, fun x hx => hbefore x (List.mem_cons_of_mem _ hx), hpanic⟩

end Polling
