/-
The network manager (`crates/network/src/manager.rs`): it forwards the requests of this node to peer connections, in
rotation.

A poll is a loop; `turn` is one iteration of it, and answers whether the loop goes on. A run is any sequence of turns,
mixed with what happens outside: events and requests arrive in the two streams, and connections close. So whatever may
happen between two polls may also happen between two turns of one. Requests are of any type `R`, as the manager never
looks into them.

- `Conserves`: every request taken from the stream has been delivered or waits, and every live connection is in the
  rotation.
- `Forwards`: what a step delivers, and to whom.
- `Ordered`: requests are sent in the order in which they were received. A request that waits is taken from the front of
  the queue and, if every connection is closed, put back behind the others; so `Ordered` is kept by the steps that meet
  `KeepsPlace`, and by no others.
- `poll_terminates`: a poll comes to an end.
- `manager_forwards`, `fresh_overtakes`: all this in every run, and a run in which a request overtakes another one.
-/
import Mathlib.Data.Finset.Basic
import Mathlib.Data.List.Perm.Basic
import Mathlib.Tactic
import Ress.Lib.Run

namespace Ress

/-- the sending half of a connection's channel, by the channel -/
abbrev Channel := ℕ

structure ConnectionHandle where
  peerId : ℕ
  toConnection : Channel
deriving DecidableEq, Repr

/-- `ProtocolEvent` of `reth_ress_protocol` -/
inductive ProtocolEvent where
  | established (connection : ConnectionHandle)
  | maxActiveConnectionsExceeded (numActive : ℕ)
deriving DecidableEq, Repr

/-- `protocolEvents` and `peerRequests` are what the streams hold. `closed` is outside the manager: the channels whose
receiver is gone. The last three fields are history, which nothing reads: the requests and connections taken from the
streams, and the requests sent. -/
structure RessNetworkManager (R : Type) where
  protocolEvents : List ProtocolEvent
  peerRequests : List R
  connections : List ConnectionHandle
  pendingRequests : List R
  closed : Finset Channel
  received : List R
  established : List ConnectionHandle
  delivered : List (R × ConnectionHandle)

namespace RessNetworkManager

open scoped List

variable {R : Type}

def new (R : Type) : RessNetworkManager R := ⟨[], [], [], [], ∅, [], [], []⟩

/-- the receiver of the connection is there, so that sending to it succeeds -/
def live (m : RessNetworkManager R) (connection : ConnectionHandle) : Bool := connection.toConnection ∉ m.closed

/-- rotate through the connections until one takes the request; those that are closed go -/
def rotate (live : ConnectionHandle → Bool) : List ConnectionHandle → Option ConnectionHandle × List ConnectionHandle
  | [] => (none, [])
  | connection :: connections =>
    if live connection then (some connection, connections ++ [connection]) else rotate live connections

def onPeerRequest (m : RessNetworkManager R) (request : R) : RessNetworkManager R :=
  match rotate m.live m.connections with
  | (some connection, connections) =>
    { m with connections := connections, delivered := m.delivered ++ [(request, connection)] }
  | (none, connections) =>
    { m with connections := connections, pendingRequests := m.pendingRequests ++ [request] }

/-- the part of an iteration that polls the request stream -/
def pollRequests (m : RessNetworkManager R) : Bool × RessNetworkManager R :=
  match m.peerRequests with
  | request :: requests =>
    (true, { m with peerRequests := requests, received := m.received ++ [request] }.onPeerRequest request)
  | [] => (false, m)

/-- the part of an iteration that polls the event stream, and then the request stream -/
def pollEvents (m : RessNetworkManager R) : Bool × RessNetworkManager R :=
  match m.protocolEvents with
  | .established connection :: events =>
    (true, { m with
      protocolEvents := events
      connections := m.connections ++ [connection]
      established := m.established ++ [connection] })
  -- an event of another kind is taken from the stream and dropped
  | .maxActiveConnectionsExceeded _ :: events => { m with protocolEvents := events }.pollRequests
  | [] => m.pollRequests

/-- one iteration of the loop of `poll`; `false` is `Poll::Pending` -/
def turn (m : RessNetworkManager R) : Bool × RessNetworkManager R :=
  match m.connections, m.pendingRequests with
  | _ :: _, request :: requests => (true, { m with pendingRequests := requests }.onPeerRequest request)
  | _, _ => m.pollEvents

/-- the loop, for at most so many iterations -/
def pollLoop : ℕ → RessNetworkManager R → Option (RessNetworkManager R)
  | 0, _ => none
  | fuel + 1, m =>
    match m.turn with
    | (true, m) => pollLoop fuel m
    | (false, m) => some m

/-! ## Sending a request -/

variable {m m' : RessNetworkManager R}

/-- what rotation does: the connection that takes the request is live, and no live connection goes -/
theorem rotate_spec (live : ConnectionHandle → Bool) (connections : List ConnectionHandle) :
    ((rotate live connections).2.filter live).Perm (connections.filter live) ∧
      (rotate live connections).2.length ≤ connections.length ∧
      match (rotate live connections).1 with
      | some connection => connection ∈ connections ∧ live connection = true
      | none => (rotate live connections).2 = [] := by
  induction connections with
  | nil => exact ⟨List.Perm.refl _, le_rfl, rfl⟩
  | cons connection connections ih =>
    simp only [rotate]
    by_cases hlive : live connection = true
    · rw [if_pos hlive]
      refine ⟨?_, ?_, List.mem_cons_self, hlive⟩
      · rw [List.filter_append, List.filter_cons_of_pos hlive, List.filter_cons_of_pos hlive]
        exact List.perm_append_singleton connection (connections.filter live)
      · simp
    · obtain ⟨hperm, hlength, hsent⟩ := ih
      rw [if_neg hlive, List.filter_cons_of_neg hlive]
      refine ⟨hperm, hlength.trans (Nat.le_succ _), ?_⟩
      cases hr : (rotate live connections).1 with
      | none =>
        rw [hr] at hsent
        exact hsent
      | some taken =>
        rw [hr] at hsent
        exact ⟨List.mem_cons_of_mem _ hsent.1, hsent.2⟩

/-- sending a request: a live connection takes it, or no connection is left and it waits behind the others -/
inductive Sends (m : RessNetworkManager R) (request : R) : RessNetworkManager R → Prop
  | delivered (connection : ConnectionHandle) (connections : List ConnectionHandle) (hmem : connection ∈ m.connections)
      (hlive : m.live connection = true) (hperm : (connections.filter m.live).Perm (m.connections.filter m.live))
      (hlength : connections.length ≤ m.connections.length) :
      Sends m request { m with
        connections := connections
        delivered := m.delivered ++ [(request, connection)] }
  | queued (hperm : (m.connections.filter m.live).Perm []) :
      Sends m request { m with connections := [], pendingRequests := m.pendingRequests ++ [request] }

theorem onPeerRequest_sends (m : RessNetworkManager R) (request : R) : Sends m request (m.onPeerRequest request) := by
  obtain ⟨hperm, hlength, hsent⟩ := rotate_spec m.live m.connections
  simp only [onPeerRequest]
  cases hr : rotate m.live m.connections with
  | mk taken connections =>
    rw [hr] at hperm hlength hsent
    cases taken with
    | some connection => exact Sends.delivered connection connections hsent.1 hsent.2 hperm hlength
    | none =>
      simp only at hsent
      subst hsent
      exact Sends.queued hperm.symm

/-! ## One iteration -/

/-- no request waits, or no connection is there to take it -/
def Drained (m : RessNetworkManager R) : Prop := m.connections = [] ∨ m.pendingRequests = []

/-- what an iteration does; `events` is what is left of the event stream -/
inductive Turns (m : RessNetworkManager R) : Bool → RessNetworkManager R → Prop
  | resends {request : R} {requests : List R} {m' : RessNetworkManager R} (hc : m.connections ≠ [])
      (hp : m.pendingRequests = request :: requests) (hs : Sends { m with pendingRequests := requests } request m') :
      Turns m true m'
  | connects {connection : ConnectionHandle} {events : List ProtocolEvent}
      (he : m.protocolEvents = .established connection :: events) (hd : m.Drained) :
      Turns m true { m with
        protocolEvents := events
        connections := m.connections ++ [connection]
        established := m.established ++ [connection] }
  | takes {request : R} {requests : List R} {events : List ProtocolEvent} {m' : RessNetworkManager R}
      (he : events.length ≤ m.protocolEvents.length) (hr : m.peerRequests = request :: requests) (hd : m.Drained)
      (hs : Sends { m with
        protocolEvents := events
        peerRequests := requests
        received := m.received ++ [request] } request m') :
      Turns m true m'
  | waits {events : List ProtocolEvent} (he : events.length ≤ m.protocolEvents.length) (hr : m.peerRequests = [])
      (hd : m.Drained) :
      Turns m false { m with protocolEvents := events }

theorem pollRequests_turns (events : List ProtocolEvent) (he : events.length ≤ m.protocolEvents.length)
    (hd : m.Drained) :
    Turns m ({ m with protocolEvents := events }.pollRequests).1
      ({ m with protocolEvents := events }.pollRequests).2 := by
  simp only [pollRequests]
  cases hr : m.peerRequests with
  | nil =>
    have h := Turns.waits he hr hd
    rw [hr] at h
    exact h
  | cons request requests => exact Turns.takes he hr hd (onPeerRequest_sends _ request)

theorem pollEvents_turns (hd : m.Drained) : Turns m m.pollEvents.1 m.pollEvents.2 := by
  simp only [pollEvents]
  cases he : m.protocolEvents with
  | nil => exact pollRequests_turns m.protocolEvents le_rfl hd
  | cons event events =>
    have hlength : events.length ≤ m.protocolEvents.length := by simp [he]
    cases event with
    | established connection => exact Turns.connects he hd
    | maxActiveConnectionsExceeded => exact pollRequests_turns events hlength hd

theorem Turns.drained (ht : Turns m false m') : m'.Drained := by
  cases ht with
  | waits he hr hd => exact hd

theorem turn_turns (m : RessNetworkManager R) : Turns m m.turn.1 m.turn.2 := by
  simp only [turn]
  split
  case h_1 connection connections request requests hc hp =>
    have hne : m.connections ≠ [] := by simp [hc]
    exact Turns.resends hne hp (onPeerRequest_sends _ request)
  case h_2 hrest =>
    refine pollEvents_turns ?_
    cases hc : m.connections with
    | nil => exact Or.inl hc
    | cons connection connections =>
      cases hp : m.pendingRequests with
      | nil => exact Or.inr hp
      | cons request requests => exact absurd hp (hrest connection connections request requests hc)

/-! ## The run -/

/-- what happens: a stream gets an item, a connection closes, or the loop of a poll makes a turn -/
inductive Action (R : Type) where
  | event (event : ProtocolEvent)
  | request (request : R)
  | close (connection : Channel)
  | turn

def step (m : RessNetworkManager R) : Action R → RessNetworkManager R
  | .event event => { m with protocolEvents := m.protocolEvents ++ [event] }
  | .request request => { m with peerRequests := m.peerRequests ++ [request] }
  | .close connection => { m with closed := insert connection m.closed }
  | .turn => m.turn.2

/-- the requests taken from the stream are those delivered and those that wait, each as often; and the live
connections are in the rotation -/
structure Conserves (m : RessNetworkManager R) : Prop where
  requests : (m.delivered.map Prod.fst ++ m.pendingRequests).Perm m.received
  connections : (m.connections.filter m.live).Perm (m.established.filter m.live)

theorem new_conserves : Conserves (new R) := ⟨List.Perm.refl _, List.Perm.refl _⟩

/-- sending a request that was just taken from the stream, or from the front of those that wait -/
theorem Sends.conserves {request : R} (hs : Sends m request m')
    (hrequests : request :: (m.delivered.map Prod.fst ++ m.pendingRequests) ~ m.received)
    (hconnections : m.connections.filter m.live ~ m.established.filter m.live) : Conserves m' := by
  cases hs with
  | delivered connection connections hmem hlive hperm hlength =>
    refine ⟨?_, hperm.trans hconnections⟩
    calc (m.delivered ++ [(request, connection)]).map Prod.fst ++ m.pendingRequests
        ~ m.delivered.map Prod.fst ++ request :: m.pendingRequests := by simp
      _ ~ request :: (m.delivered.map Prod.fst ++ m.pendingRequests) := List.perm_middle
      _ ~ m.received := hrequests
  | queued hperm =>
    refine ⟨?_, hperm.symm.trans hconnections⟩
    calc m.delivered.map Prod.fst ++ (m.pendingRequests ++ [request])
        ~ (m.delivered.map Prod.fst ++ m.pendingRequests) ++ [request] := by rw [List.append_assoc]
      _ ~ request :: (m.delivered.map Prod.fst ++ m.pendingRequests) := List.perm_append_singleton _ _
      _ ~ m.received := hrequests

theorem Turns.conserves {goesOn : Bool} (ht : Turns m goesOn m') (h : Conserves m) : Conserves m' := by
  cases ht with
  | @resends request requests _ hc hp hs =>
    refine hs.conserves ?_ h.connections
    have hrequests := h.requests
    rw [hp] at hrequests
    exact List.perm_middle.symm.trans hrequests
  | @connects connection events he hd =>
    refine ⟨h.requests, ?_⟩
    show (m.connections ++ [connection]).filter m.live ~ (m.established ++ [connection]).filter m.live
    rw [List.filter_append, List.filter_append]
    exact h.connections.append_right _
  | @takes request requests events _ he hr hd hs =>
    refine hs.conserves ?_ h.connections
    calc request :: (m.delivered.map Prod.fst ++ m.pendingRequests)
        ~ request :: m.received := h.requests.cons request
      _ ~ m.received ++ [request] := (List.perm_append_singleton request m.received).symm
  | waits => exact ⟨h.requests, h.connections⟩

theorem step_conserves (a : Action R) (h : Conserves m) : Conserves (step m a) := by
  cases a with
  | event event => exact ⟨h.requests, h.connections⟩
  | request request => exact ⟨h.requests, h.connections⟩
  | close channel =>
    -- the connections that stay live are some of those that were
    have hlive (connections : List ConnectionHandle) : connections.filter (step m (.close channel)).live =
        (connections.filter m.live).filter (step m (.close channel)).live := by
      rw [List.filter_filter]
      refine List.filter_congr fun connection hmem => ?_
      simp [live, step]
    refine ⟨h.requests, ?_⟩
    show m.connections.filter (step m (.close channel)).live ~ m.established.filter (step m (.close channel)).live
    rw [hlive m.connections, hlive m.established]
    exact h.connections.filter _
  | turn => exact (turn_turns m).conserves h

/-- what a step sends: nothing, or one request, to a connection of the rotation that is open then. The request is the
first of the queue, or it comes from the stream and the queue is empty. -/
def Forwards (m m' : RessNetworkManager R) : Prop :=
  m'.delivered = m.delivered ∨
    ∃ request, ∃ connection ∈ m.connections, m.live connection = true ∧
      m'.delivered = m.delivered ++ [(request, connection)] ∧
      (m.pendingRequests = request :: m'.pendingRequests ∨
        m.pendingRequests = [] ∧ m.peerRequests = request :: m'.peerRequests)

theorem Turns.forwards {goesOn : Bool} (ht : Turns m goesOn m') : Forwards m m' := by
  cases ht with
  | @resends request requests _ hc hp hs =>
    cases hs with
    | delivered connection connections hmem hlive =>
      exact Or.inr ⟨request, connection, hmem, hlive, rfl, Or.inl hp⟩
    | queued => exact Or.inl rfl
  | connects => exact Or.inl rfl
  | @takes request requests events _ he hr hd hs =>
    cases hs with
    | delivered connection connections hmem hlive =>
      have hpending : m.pendingRequests = [] := hd.resolve_left (List.ne_nil_of_mem hmem)
      exact Or.inr ⟨request, connection, hmem, hlive, rfl, Or.inr ⟨hpending, hr⟩⟩
    | queued => exact Or.inl rfl
  | waits => exact Or.inl rfl

theorem step_forwards (m : RessNetworkManager R) (a : Action R) : Forwards m (step m a) := by
  cases a with
  | turn => exact (turn_turns m).forwards
  | _ => exact Or.inl rfl

/-! ## The order of the requests -/

/-- the requests sent are the first of those received, in the same order, and those that wait are the others -/
def Ordered (m : RessNetworkManager R) : Prop := m.delivered.map Prod.fst ++ m.pendingRequests = m.received

/-- where an iteration takes a request out of the queue and another one waits behind it, some connection is open -/
def KeepsPlace (m : RessNetworkManager R) : Action R → Prop
  | .turn => ∀ request requests, m.pendingRequests = request :: requests → m.connections ≠ [] → requests ≠ [] →
      ∃ connection ∈ m.connections, m.live connection = true
  | _ => True

/-- the request that arrives is none of those that arrived before: it has its own response channel -/
def Fresh (m : RessNetworkManager R) : Action R → Prop
  | .request request => request ∉ m.received ++ m.peerRequests
  | _ => True

theorem Turns.ordered {goesOn : Bool} (ht : Turns m goesOn m') (h : Ordered m) (hkeeps : KeepsPlace m .turn) :
    Ordered m' := by
  cases ht with
  | @resends request requests _ hc hp hs =>
    have hbefore : m.delivered.map Prod.fst ++ request :: requests = m.received := hp ▸ h
    cases hs with
    | delivered connection connections =>
      calc (m.delivered ++ [(request, connection)]).map Prod.fst ++ requests
          = m.delivered.map Prod.fst ++ request :: requests := by simp
        _ = m.received := hbefore
    | queued hperm =>
      -- no connection is open, so no other request waits
      have hnone : requests = [] := by
        by_contra hne
        obtain ⟨connection, hmem, hlive⟩ := hkeeps request requests hp hc hne
        have hopen : connection ∈ m.connections.filter m.live := List.mem_filter.2 ⟨hmem, hlive⟩
        exact absurd (hperm.subset hopen) List.not_mem_nil
      subst hnone
      exact hbefore
  | connects => exact h
  | @takes request requests events _ he hr hd hs =>
    cases hs with
    | delivered connection connections hmem =>
      have hpending : m.pendingRequests = [] := hd.resolve_left (List.ne_nil_of_mem hmem)
      have hall : m.delivered.map Prod.fst = m.received := by
        rw [← h, hpending, List.append_nil]
      calc (m.delivered ++ [(request, connection)]).map Prod.fst ++ m.pendingRequests
          = m.delivered.map Prod.fst ++ [request] := by simp [hpending]
        _ = m.received ++ [request] := by rw [hall]
    | queued =>
      calc m.delivered.map Prod.fst ++ (m.pendingRequests ++ [request])
          = (m.delivered.map Prod.fst ++ m.pendingRequests) ++ [request] := (List.append_assoc _ _ _).symm
        _ = m.received ++ [request] := by rw [h]
  | waits => exact h

/-- a request that goes to the end of the queue stands behind one that was received later -/
theorem Turns.keepsPlace {goesOn : Bool} (ht : Turns m goesOn m') (h : Ordered m) (hdistinct : m.received.Nodup)
    (h' : Ordered m') : KeepsPlace m .turn := by
  intro request requests hp hc hne
  have hdrained : ¬ m.Drained := by
    rintro (hnone | hnone)
    · exact hc hnone
    · exact List.cons_ne_nil _ _ (hp.symm.trans hnone)
  cases ht with
  | @resends request' requests' _ _ hp' hs =>
    obtain ⟨rfl, rfl⟩ := List.cons.inj (hp'.symm.trans hp)
    cases hs with
    | delivered connection _ hmem hlive => exact ⟨connection, hmem, hlive⟩
    | queued =>
      have hbefore : m.delivered.map Prod.fst ++ request' :: requests' = m.received := hp ▸ h
      have hafter : m.delivered.map Prod.fst ++ (requests' ++ [request']) = m.received := h'
      have hturned : requests' ++ [request'] = request' :: requests' :=
        List.append_cancel_left (hafter.trans hbefore.symm)
      have hmem : request' ∈ requests' := by
        cases requests' with
        | nil => exact absurd rfl hne
        | cons second rest =>
          rw [(List.cons.inj hturned).1]
          exact List.mem_cons_self
      rw [← hbefore] at hdistinct
      exact absurd hmem (List.nodup_cons.1 hdistinct.of_append_right).1
  | connects _ hd => exact absurd hd hdrained
  | takes _ _ hd => exact absurd hd hdrained
  | waits _ _ hd => exact absurd hd hdrained

/-- **One step** keeps the order exactly if it keeps the places in the queue. -/
theorem step_ordered_iff (a : Action R) (h : Ordered m) (hdistinct : m.received.Nodup) :
    Ordered (step m a) ↔ KeepsPlace m a := by
  cases a with
  | event event => exact iff_of_true h trivial
  | request request => exact iff_of_true h trivial
  | close channel => exact iff_of_true h trivial
  | turn => exact ⟨(turn_turns m).keepsPlace h hdistinct, (turn_turns m).ordered h⟩

/-- an iteration takes requests out of the stream one by one -/
theorem Turns.requests {goesOn : Bool} (ht : Turns m goesOn m') :
    m'.received ++ m'.peerRequests = m.received ++ m.peerRequests := by
  cases ht with
  | resends _ _ hs => cases hs <;> rfl
  | connects => rfl
  | @takes request requests events _ he hr hd hs =>
    have htaken : (m.received ++ [request]) ++ requests = m.received ++ m.peerRequests := by
      rw [hr, List.append_assoc, List.singleton_append]
    cases hs with
    | delivered => exact htaken
    | queued => exact htaken
  | waits => rfl

theorem step_distinct (a : Action R) (hfresh : Fresh m a) (h : (m.received ++ m.peerRequests).Nodup) :
    ((step m a).received ++ (step m a).peerRequests).Nodup := by
  cases a with
  | event event => exact h
  | request request =>
    change (m.received ++ (m.peerRequests ++ [request])).Nodup
    rw [← List.append_assoc]
    exact h.append (List.nodup_singleton _) (List.disjoint_singleton.2 hfresh)
  | close channel => exact h
  | turn =>
    have hsame := (turn_turns m).requests
    change (m.turn.2.received ++ m.turn.2.peerRequests).Nodup
    rw [hsame]
    exact h

theorem new_ordered : Ordered (new R) := rfl

/-! ## A poll comes to an end -/

/-- an item of a stream counts for two, as it may become a connection or a request that waits -/
def work (m : RessNetworkManager R) : ℕ :=
  2 * (m.protocolEvents.length + m.peerRequests.length) + m.connections.length + m.pendingRequests.length

theorem Sends.work {request : R} (hs : Sends m request m') :
    m'.work ≤ m.work + 1 ∧ (m.connections ≠ [] → m'.work ≤ m.work) := by
  cases hs with
  | delivered connection connections hmem hlive hperm hlength =>
    have hle : ({ m with
        connections := connections
        delivered := m.delivered ++ [(request, connection)] } : RessNetworkManager R).work ≤ m.work := by
      simp only [RessNetworkManager.work]
      omega
    exact ⟨hle.trans (Nat.le_succ _), fun _ => hle⟩
  | queued =>
    simp only [RessNetworkManager.work, List.length_append, List.length_singleton, List.length_nil]
    refine ⟨by omega, fun hne => ?_⟩
    have hlength : 0 < m.connections.length := List.length_pos_iff.2 hne
    omega

/-- an iteration after which the loop goes on has less work left -/
theorem Turns.work {goesOn : Bool} (ht : Turns m goesOn m') : m'.work + (if goesOn then 1 else 0) ≤ m.work := by
  cases ht with
  | @resends request requests _ hc hp hs =>
    have hsent := hs.work.2 hc
    simp only [RessNetworkManager.work, hp, List.length_cons, if_true] at hsent ⊢
    omega
  | @connects connection events he hd =>
    simp only [RessNetworkManager.work, he, List.length_cons, List.length_append, List.length_nil, if_true]
    omega
  | @takes request requests events _ he hr hd hs =>
    have hsent := hs.work.1
    simp only [RessNetworkManager.work, hr, List.length_cons, if_true] at hsent ⊢
    omega
  | waits he hr hd =>
    simp only [RessNetworkManager.work, Bool.false_eq_true, if_false]
    omega

/-- with enough fuel the loop ends: after some turns the poll is pending -/
theorem poll_terminates (fuel : ℕ) (m : RessNetworkManager R) (hfuel : m.work < fuel) :
    ∃ turns m', pollLoop fuel m = some m' ∧ m' = Run.run step m (List.replicate turns .turn) ∧ m'.Drained := by
  induction fuel generalizing m with
  | zero => exact absurd hfuel (Nat.not_lt_zero _)
  | succ fuel ih =>
    have hturns := turn_turns m
    simp only [pollLoop]
    rcases ht : m.turn with ⟨goesOn, m'⟩
    have hstep : step m .turn = m' := by simp [step, ht]
    rw [ht] at hturns
    cases goesOn with
    | false =>
      have hd : m'.Drained := hturns.drained
      exact ⟨1, m', rfl, hstep.symm, hd⟩
    | true =>
      have hwork : m'.work + 1 ≤ m.work := hturns.work
      obtain ⟨turns, last, hloop, hrun, hd⟩ := ih m' (by omega)
      refine ⟨turns + 1, last, hloop, ?_, hd⟩
      rw [List.replicate_succ, Run.run_cons, hstep]
      exact hrun

/-- the turns of a run after which the loop goes on -/
def iterations (m : RessNetworkManager R) : List (Action R) → ℕ
  | [] => 0
  | .turn :: as => (if m.turn.1 then 1 else 0) + iterations m.turn.2 as
  | a :: as => iterations (step m a) as

/-- what arrives in the streams -/
def arrivals : List (Action R) → ℕ
  | [] => 0
  | .event _ :: as => arrivals as + 1
  | .request _ :: as => arrivals as + 1
  | _ :: as => arrivals as

/-- so many arrivals allow so many iterations, wherever the arrivals fall -/
theorem iterations_le (m : RessNetworkManager R) (as : List (Action R)) :
    iterations m as + (Run.run step m as).work ≤ m.work + 2 * arrivals as := by
  induction as generalizing m with
  | nil => simp [iterations, arrivals]
  | cons a as ih =>
    rw [Run.run_cons]
    have hrest := ih (step m a)
    cases a with
    | event event =>
      have hwork : (step m (.event event)).work = m.work + 2 := by simp [step, work]; omega
      simp only [iterations, arrivals]
      omega
    | request request =>
      have hwork : (step m (.request request)).work = m.work + 2 := by simp [step, work]; omega
      simp only [iterations, arrivals]
      omega
    | close channel =>
      have hwork : (step m (.close channel)).work = m.work := rfl
      simp only [iterations, arrivals]
      omega
    | turn =>
      have hwork := (turn_turns m).work
      simp only [iterations, arrivals]
      simp only [step] at hrest ⊢
      omega

/-- **Every request is in one place.** In every run: each request taken from the stream is delivered once or waits
once, and each live connection is in the rotation; a step sends at most one request, to a connection that is open; a poll
that is pending leaves a request waiting only where there is no connection; a poll comes to an end, and so many arrivals
allow only so many iterations. And the requests are sent in the order in which they were received, and wait in that
order, exactly if none of them loses its place in the queue. -/
theorem manager_forwards (as : List (Action R)) (hfresh : Run.AllSteps step Fresh (new R) as) :
    let m := Run.run step (new R) as
    (Conserves m ∧ (∀ a, Forwards m (step m a)) ∧ (m.turn.1 = false → m.turn.2.Drained) ∧
        (∃ turns m', pollLoop (m.work + 1) m = some m' ∧ m' = Run.run step m (List.replicate turns .turn) ∧
          m'.Drained) ∧
        iterations (new R) as ≤ 2 * arrivals as) ∧
      (Run.Always step Ordered (new R) as ↔ Run.AllSteps step KeepsPlace (new R) as) := by
  intro m
  refine ⟨?_, ?_⟩
  · have hconserves : Conserves m := Run.run_preserves (fun _ a h => step_conserves a h) as new_conserves
    have hpending : m.turn.1 = false → m.turn.2.Drained := by
      intro hturn
      have ht := turn_turns m
      rw [hturn] at ht
      exact ht.drained
    refine ⟨hconserves, step_forwards m, hpending, poll_terminates _ m (Nat.lt_succ_self _), ?_⟩
    calc iterations (new R) as ≤ iterations (new R) as + m.work := Nat.le_add_right _ _
      _ ≤ (new R).work + 2 * arrivals as := iterations_le (new R) as
      _ = 2 * arrivals as := by simp [work, new]
  · refine Run.always_iff_allSteps (I := fun m => (m.received ++ m.peerRequests).Nodup)
      (fun m a h hok => step_distinct a hok h) (fun m a h hordered _ => ?_) List.nodup_nil new_ordered hfresh
    exact step_ordered_iff a hordered h.of_append_left

/-- two requests wait, and the connection that is established then is open -/
def twoWait : List (Action ℕ) :=
  [.request 1, .turn, .request 2, .turn, .event (.established ⟨0, 7⟩), .turn, .turn, .turn]

theorem manager_forwards_two : (Run.run step (new ℕ) twoWait).delivered.map Prod.fst = [1, 2] ∧
    Run.Always step Ordered (new ℕ) twoWait := by
  refine ⟨by decide, (manager_forwards twoWait ?_).2.2 ?_⟩
  · have hsecond : (2 : ℕ) ∉ [1] := by decide
    exact ⟨List.not_mem_nil, trivial, hsecond, trivial, trivial, trivial, trivial, trivial, trivial⟩
  · refine ⟨trivial, ?_, trivial, ?_, trivial, ?_, ?_, ?_, trivial⟩
    · intro request requests hp
      cases hp
    · intro request requests hp hc
      exact absurd rfl hc
    · intro request requests hp hc
      exact absurd rfl hc
    · intro request requests hp hc hne
      exact ⟨⟨0, 7⟩, by decide, by decide⟩
    · intro request requests hp hc hne
      exact ⟨⟨0, 7⟩, by decide, by decide⟩

/-- two requests wait, and the first connection that is established is closed by then -/
def closedFirst : List (Action ℕ) :=
  [.request 1, .turn, .request 2, .turn, .close 7, .event (.established ⟨0, 7⟩), .turn, .turn,
    .event (.established ⟨1, 8⟩), .turn, .turn]

/-- **A fresh request overtakes.** Request 1 waits when request 2 is received. The closed connection is tried with request
1, which goes to the end of the queue, and request 2 is sent first. -/
theorem fresh_overtakes :
    (Run.run step (new ℕ) (closedFirst.take 3)).pendingRequests = [1] ∧
      (Run.run step (new ℕ) (closedFirst.take 3)).peerRequests = [2] ∧
      (Run.run step (new ℕ) closedFirst).received = [1, 2] ∧
      (Run.run step (new ℕ) closedFirst).delivered = [(2, ⟨1, 8⟩)] ∧
      (Run.run step (new ℕ) closedFirst).pendingRequests = [1] ∧
      ¬ Ordered (Run.run step (new ℕ) closedFirst) := by
  refine ⟨by decide, by decide, by decide, by decide, by decide, ?_⟩
  unfold Ordered
  decide

end RessNetworkManager

end Ress
