/-
Wake-ups of the network manager: what its polls of the two streams have answered when its own poll is pending.

A stream wakes the task when an item arrives after a poll of it that found none. So a pending manager notices everything
only if the last poll of each stream found nothing (`Quiet`). `Task` is the manager with the last answer of each stream.
The loop takes a connection-limit event from the event stream and goes on to the request stream. If that has nothing,
the poll is pending, and the event stream was not polled again.

- `Task.turn_quiet`: what that turn needs.
- `Task.pollLoop_quiet`: an uninterrupted poll meets that turn exactly if more limit events wait than requests.
- `wakeUps_iff`, `lost_wakeUp`: whole runs, and one that leaves a request waiting beside a connection.
-/
import Ress.Network.RessNetworkManager

namespace Ress

namespace RessNetworkManager

variable {R : Type}

/-- what a poll of a stream answers: an item, or else that it is pending or at its end, which the manager does not
distinguish -/
inductive StreamPoll where
  | item
  | nothing
deriving DecidableEq, Repr

def pollStream {α : Type} : List α → StreamPoll
  | [] => .nothing
  | _ :: _ => .item

/-- the polls of the event stream and of the request stream that an iteration makes -/
def turnPolls (m : RessNetworkManager R) : Option StreamPoll × Option StreamPoll :=
  match m.connections, m.pendingRequests with
  | _ :: _, _ :: _ => (none, none)
  | _, _ =>
    match m.protocolEvents with
    | .established _ :: _ => (some .item, none)
    | events => (some (pollStream events), some (pollStream m.peerRequests))

/-- the manager with the last answer of each stream, and whether its last iteration ended a poll -/
structure Task (R : Type) where
  manager : RessNetworkManager R
  eventsPolled : Option StreamPoll
  requestsPolled : Option StreamPoll
  pending : Bool

namespace Task

def launch (R : Type) : Task R := ⟨RessNetworkManager.new R, none, none, false⟩

def turn (t : Task R) : Task R :=
  ⟨t.manager.turn.2, t.manager.turnPolls.1.or t.eventsPolled, t.manager.turnPolls.2.or t.requestsPolled,
    !t.manager.turn.1⟩

def step (t : Task R) : Action R → Task R
  | .turn => t.turn
  | a => { t with manager := RessNetworkManager.step t.manager a }

/-- the loop of a poll that nothing interrupts, for at most so many iterations -/
def pollLoop : ℕ → Task R → Option (Task R)
  | 0, _ => none
  | fuel + 1, t => if t.turn.pending then some t.turn else pollLoop fuel t.turn

/-- the last poll of each stream found nothing -/
structure Quiet (t : Task R) : Prop where
  events : t.eventsPolled = some .nothing
  requests : t.requestsPolled = some .nothing

end Task

/-- the iteration polls a connection-limit event, and then finds no request -/
structure LimitLast (m : RessNetworkManager R) : Prop where
  drained : m.Drained
  limit : ∃ numActive events, m.protocolEvents = .maxActiveConnectionsExceeded numActive :: events
  requests : m.peerRequests = []

/-! ## One iteration -/

variable {m : RessNetworkManager R}

/-- an iteration that sends a request again polls no stream; any other is one of `pollEvents` -/
theorem turn_resends_or (m : RessNetworkManager R) :
    (¬ m.Drained ∧ ∃ request requests, m.pendingRequests = request :: requests ∧
        m.turn = (true, { m with pendingRequests := requests }.onPeerRequest request) ∧ m.turnPolls = (none, none)) ∨
      (m.Drained ∧ m.turn = m.pollEvents) := by
  simp only [Drained, turn, turnPolls]
  cases hc : m.connections with
  | nil => exact Or.inr ⟨Or.inl rfl, rfl⟩
  | cons connection connections =>
    cases hp : m.pendingRequests with
    | nil => exact Or.inr ⟨Or.inr rfl, rfl⟩
    | cons request requests => exact Or.inl ⟨by simp, request, requests, rfl, rfl, rfl⟩

theorem turnPolls_drained (hd : m.Drained) : m.turnPolls =
    match m.protocolEvents with
    | .established _ :: _ => (some .item, none)
    | events => (some (pollStream events), some (pollStream m.peerRequests)) := by
  simp only [turnPolls]
  cases hc : m.connections with
  | nil => rfl
  | cons connection connections =>
    cases hp : m.pendingRequests with
    | nil => rfl
    | cons request requests => exact absurd hd (by simp [Drained, hc, hp])

/-- sending a request leaves the event stream as it is -/
@[simp] theorem onPeerRequest_protocolEvents (m : RessNetworkManager R) (request : R) :
    (m.onPeerRequest request).protocolEvents = m.protocolEvents := by
  simp only [onPeerRequest]
  split <;> rfl

/-- sending a request leaves the request stream as it is -/
@[simp] theorem onPeerRequest_peerRequests (m : RessNetworkManager R) (request : R) :
    (m.onPeerRequest request).peerRequests = m.peerRequests := by
  simp only [onPeerRequest]
  split <;> rfl

/-- the connection-limit events that wait -/
def limitEvents (m : RessNetworkManager R) : ℕ :=
  m.protocolEvents.countP fun
    | .maxActiveConnectionsExceeded _ => true
    | .established _ => false

/-- the connection-limit events are no more than the requests -/
def LimitsCovered (m : RessNetworkManager R) : Prop := m.limitEvents ≤ m.peerRequests.length

/-- what an iteration does to the task: the loop goes on, or it ends after a connection-limit event, or with nothing
left in the streams -/
inductive Task.Turned (t t' : Task R) : Prop
  | goesOn (hpending : t'.pending = false) (hlast : ¬ t.manager.LimitLast)
      (hcovered : t'.manager.LimitsCovered ↔ t.manager.LimitsCovered)
  | limitLast (hlast : t.manager.LimitLast) (hpending : t'.pending = true) (hitem : t'.eventsPolled = some .item)
  | rests (he : t.manager.protocolEvents = []) (hpending : t'.pending = true) (hquiet : t'.Quiet)

theorem Task.turn_turned (t : Task R) : t.Turned t.turn := by
  rcases turn_resends_or t.manager with ⟨hnot, request, requests, -, hturn, -⟩ | ⟨hd, hturn⟩
  · refine .goesOn (by simp [Task.turn, hturn]) (fun h => hnot h.drained) ?_
    simp only [LimitsCovered, limitEvents, Task.turn, hturn, onPeerRequest_protocolEvents, onPeerRequest_peerRequests]
  have hpolls := turnPolls_drained hd
  cases he : t.manager.protocolEvents with
  | nil =>
    have hlast : ¬ t.manager.LimitLast := by
      rintro ⟨-, ⟨numActive, events, hlimit⟩, -⟩
      rw [he] at hlimit
      cases hlimit
    cases hr : t.manager.peerRequests with
    | nil =>
      refine .rests he (by simp [Task.turn, hturn, pollEvents, he, pollRequests, hr]) ⟨?_, ?_⟩
      · simp [Task.turn, hpolls, he, pollStream]
      · simp [Task.turn, hpolls, he, hr, pollStream]
    | cons request requests =>
      refine .goesOn (by simp [Task.turn, hturn, pollEvents, he, pollRequests, hr]) hlast (iff_of_true ?_ ?_)
      · simp [LimitsCovered, limitEvents, Task.turn, hturn, pollEvents, he, pollRequests, hr]
      · simp [LimitsCovered, limitEvents, he]
  | cons event events =>
    cases event with
    | established connection =>
      refine .goesOn (by simp [Task.turn, hturn, pollEvents, he]) ?_ ?_
      · rintro ⟨-, ⟨numActive, events', hlimit⟩, -⟩
        rw [he] at hlimit
        cases hlimit
      · simp [LimitsCovered, limitEvents, Task.turn, hturn, pollEvents, he]
    | maxActiveConnectionsExceeded numActive =>
      cases hr : t.manager.peerRequests with
      | nil =>
        refine .limitLast ⟨hd, ⟨numActive, events, he⟩, hr⟩ ?_ ?_
        · simp [Task.turn, hturn, pollEvents, he, pollRequests, hr]
        · simp [Task.turn, hpolls, he, pollStream]
      | cons request requests =>
        refine .goesOn (by simp [Task.turn, hturn, pollEvents, he, pollRequests, hr]) ?_ ?_
        · rintro ⟨-, -, hnone⟩
          rw [hr] at hnone
          cases hnone
        · -- the event and a request go together
          simp [LimitsCovered, limitEvents, Task.turn, hturn, pollEvents, he, pollRequests, hr]

theorem Task.Quiet.not_item {t : Task R} (hquiet : t.Quiet) (hitem : t.eventsPolled = some .item) : False := by
  rw [hquiet.events] at hitem
  cases hitem

/-- **When an iteration leaves the task quiet.** One after which the poll is pending does, unless it polled a
connection-limit event. -/
theorem Task.turn_quiet (t : Task R) : (t.turn.pending = true → t.turn.Quiet) ↔ ¬ t.manager.LimitLast := by
  cases t.turn_turned with
  | goesOn hpending hlast hcovered => exact iff_of_true (fun h => by rw [hpending] at h; cases h) hlast
  | limitLast hlast hpending hitem =>
    exact iff_of_false (fun h => (h hpending).not_item hitem) (not_not.2 hlast)
  | rests he hpending hquiet =>
    refine iff_of_true (fun _ => hquiet) ?_
    rintro ⟨-, ⟨numActive, events, hlimit⟩, -⟩
    rw [he] at hlimit
    cases hlimit

/-- **When an uninterrupted poll leaves the task quiet**: no more connection-limit events wait than requests. -/
theorem Task.pollLoop_quiet (fuel : ℕ) (t : Task R) (hfuel : t.manager.work < fuel) :
    ∃ t', pollLoop fuel t = some t' ∧ t'.pending = true ∧ (t'.Quiet ↔ t.manager.LimitsCovered) := by
  induction fuel generalizing t with
  | zero => exact absurd hfuel (Nat.not_lt_zero _)
  | succ fuel ih =>
    simp only [Task.pollLoop]
    cases t.turn_turned with
    | goesOn hpending hlast hcovered =>
      have hgoesOn : t.manager.turn.1 = true := by simpa [Task.turn] using hpending
      have hwork : t.turn.manager.work + 1 ≤ t.manager.work := by
        have hturns := (turn_turns t.manager).work
        rw [hgoesOn] at hturns
        exact hturns
      obtain ⟨t', hloop, hended, hquiet⟩ := ih t.turn (by omega)
      refine ⟨t', ?_, hended, hquiet.trans hcovered⟩
      rw [hpending]
      exact hloop
    | limitLast hlast hpending hitem =>
      refine ⟨t.turn, by rw [if_pos hpending], hpending, iff_of_false (fun h => h.not_item hitem) ?_⟩
      obtain ⟨-, ⟨numActive, events, he⟩, hr⟩ := hlast
      simp [LimitsCovered, limitEvents, he, hr]
    | rests he hpending hquiet =>
      exact ⟨t.turn, by rw [if_pos hpending], hpending, iff_of_true hquiet (by simp [LimitsCovered, limitEvents, he])⟩

/-! ## Runs -/

/-- the condition on a step: on iterations only -/
def Task.StepFits (t : Task R) : Action R → Prop
  | .turn => ¬ t.manager.LimitLast
  | _ => True

/-- where the poll is pending, the last poll of each stream found nothing -/
def Task.Noticing (t : Task R) : Prop := t.pending = true → t.Quiet

theorem Task.step_noticing (t : Task R) (a : Action R) (h : t.Noticing) : (t.step a).Noticing ↔ t.StepFits a := by
  cases a with
  | turn => exact t.turn_quiet
  | event event => exact iff_of_true (fun hp => ⟨(h hp).events, (h hp).requests⟩) trivial
  | request request => exact iff_of_true (fun hp => ⟨(h hp).events, (h hp).requests⟩) trivial
  | close channel => exact iff_of_true (fun hp => ⟨(h hp).events, (h hp).requests⟩) trivial

/-- **When no wake-up is lost.** In every run, every pending poll has last found nothing in both streams exactly if no
iteration polls a connection-limit event while no request is there; and a poll that runs uninterrupted from a state of
the run does so exactly if no more connection-limit events than requests wait in the streams. -/
theorem wakeUps_iff (as : List (Action R)) :
    (Run.Always Task.step Task.Noticing (Task.launch R) as ↔ Run.AllSteps Task.step Task.StepFits (Task.launch R) as) ∧
      let t := Run.run Task.step (Task.launch R) as
      ∃ t', Task.pollLoop (t.manager.work + 1) t = some t' ∧ t'.pending = true ∧
        (t'.Quiet ↔ t.manager.LimitsCovered) := by
  have hsteps : Run.AllSteps Task.step (fun _ _ => True) (Task.launch R) as :=
    Run.allSteps_of_mem (C := fun _ => True) (fun _ _ => trivial) _
  refine ⟨?_, Task.pollLoop_quiet _ _ (Nat.lt_succ_self _)⟩
  exact Run.always_iff_allSteps (I := fun _ => True) (fun _ _ _ _ => trivial)
    (fun t a _ h _ => t.step_noticing a h) trivial (fun h => by cases h) hsteps

/-- a request finds no connection; then a connection-limit event arrives, and after it a connection -/
def limitBeforeConnection : List (Action Unit) :=
  [.request (), .turn, .turn, .event (.maxActiveConnectionsExceeded 8), .event (.established ⟨1, 1⟩), .turn]

/-- **A lost wake-up.** The poll is pending after the connection-limit event; the connection stays in the event stream,
which was not polled again, and the request still waits. -/
theorem lost_wakeUp :
    let t := Run.run Task.step (Task.launch Unit) limitBeforeConnection
    t.pending = true ∧ t.eventsPolled = some .item ∧ t.manager.protocolEvents = [.established ⟨1, 1⟩] ∧
      t.manager.pendingRequests = [()] ∧ ¬ Run.Always Task.step Task.Noticing (Task.launch Unit) limitBeforeConnection := by
  refine ⟨by decide, by decide, by decide, by decide, fun halways => ?_⟩
  have hquiet := halways limitBeforeConnection [] (by simp) (by decide)
  exact hquiet.not_item (by decide)

end RessNetworkManager

end Ress
