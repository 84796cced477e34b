/-
Requests and their answers over the life of a node.

Every request that the engine has handled is *settled* once: its response channel has been answered, or it is the one of
the parked payload (`settled`). What is settled is at any time what has been handled (`Served.once`), as lists up to
order and with the kind of the request, so no request is answered twice, dropped, or answered as another kind.

- `Quiet`: a tree event, or an outcome before its blocks are inserted, concerns no request.
- `Served`: what every event of a node keeps.
- `requests_answered_once`: the three guarantees, for every run of a node.
-/
import Ress.Engine.EngineSteps

namespace Ress

/-- what a response channel is for -/
inductive RequestKind where
  | payload
  | forkchoice
deriving DecidableEq, Repr

def Response.kind : Response → RequestKind
  | .payload _ => .payload
  | .forkchoice _ => .forkchoice

/-- the request that a message makes -/
def BeaconEngineMessage.request? {E : Env} : BeaconEngineMessage E → Option (ℕ × RequestKind)
  | .newPayload _ tx => some (tx, .payload)
  | .forkchoiceUpdated _ _ tx _ => some (tx, .forkchoice)
  | .transitionConfigurationExchanged => none

namespace ConsensusEngine

variable {E : Env}

/-- the requests answered -/
def answered (e : ConsensusEngine E) : List (ℕ × RequestKind) := e.responses.map fun r => (r.1, r.2.kind)

/-- the request of the parked payload -/
def parkedRequest (e : ConsensusEngine E) : List (ℕ × RequestKind) :=
  e.parkedPayload.toList.map fun parked => (parked.tx, .payload)

/-- the requests answered or parked -/
def settled (e : ConsensusEngine E) : List (ℕ × RequestKind) := e.answered ++ e.parkedRequest

/-- the requests handled -/
def requested (e : ConsensusEngine E) : List (ℕ × RequestKind) := e.handled.filterMap (·.1.request?)

/-- nothing about requests changes -/
structure Quiet (e e' : ConsensusEngine E) : Prop where
  fromBeaconEngine : e'.fromBeaconEngine = e.fromBeaconEngine
  parkedPayload : e'.parkedPayload = e.parkedPayload
  responses : e'.responses = e.responses
  handled : e'.handled = e.handled

/-- no message is taken, and what is settled stays settled -/
structure Settles (e e' : ConsensusEngine E) : Prop where
  fromBeaconEngine : e'.fromBeaconEngine = e.fromBeaconEngine
  handled : e'.handled = e.handled
  settled : e'.settled.Perm e.settled

variable {e e' e'' : ConsensusEngine E}

theorem Quiet.rfl' (e : ConsensusEngine E) : Quiet e e := ⟨rfl, rfl, rfl, rfl⟩

theorem Quiet.trans (h : Quiet e e') (h' : Quiet e' e'') : Quiet e e'' :=
  ⟨h'.fromBeaconEngine.trans h.fromBeaconEngine, h'.parkedPayload.trans h.parkedPayload,
    h'.responses.trans h.responses, h'.handled.trans h.handled⟩

theorem Quiet.settled (h : Quiet e e') : e'.settled = e.settled := by
  simp only [ConsensusEngine.settled, answered, parkedRequest]
  rw [h.responses, h.parkedPayload]

theorem Quiet.settles (h : Quiet e e') : Settles e e' :=
  ⟨h.fromBeaconEngine, h.handled, List.Perm.of_eq h.settled⟩

theorem Settles.trans (h : Settles e e') (h' : Settles e' e'') : Settles e e'' :=
  ⟨h'.fromBeaconEngine.trans h.fromBeaconEngine, h'.handled.trans h.handled, h'.settled.trans h.settled⟩

/-! ## Handlers -/

theorem onTreeEvent_quiet (e : ConsensusEngine E) (event : TreeEvent) : Quiet e (e.onTreeEvent event) := by
  cases event with
  | treeAction action => exact ⟨rfl, rfl, rfl, rfl⟩
  | download request => cases request <;> exact ⟨rfl, rfl, rfl, rfl⟩

theorem onMaybeTreeEvent_quiet (e : ConsensusEngine E) (event : Option TreeEvent) :
    Quiet e (e.onMaybeTreeEvent event) := by
  cases event with
  | none => exact Quiet.rfl' e
  | some event => exact onTreeEvent_quiet e event

theorem receiveOutcome_quiet (e : ConsensusEngine E) (sched : StateRoot.Schedule) (data : DownloadData) :
    Quiet e (e.receiveOutcome sched data).2 := by
  have hreceived := receiveOutcome_received e sched data
  generalize e.receiveOutcome sched data = received at hreceived ⊢
  cases hreceived <;> exact ⟨rfl, rfl, rfl, rfl⟩

/-- answering the parked payload settles the same requests -/
theorem answer_parked {parked : ParkedPayload} (hp : e.parkedPayload = some parked) {r : Response}
    (hr : r.kind = .payload) : Settles e ({ e with parkedPayload := none }.send parked.tx r) := by
  refine ⟨rfl, rfl, ?_⟩
  simp only [ConsensusEngine.settled, answered, parkedRequest, send]
  rw [hp, List.map_append]
  simp [hr]

theorem releaseParked_settles (e : ConsensusEngine E) (hash : B256)
    (result : Except InsertBlockFatalError PayloadStatus) : Settles e (e.releaseParked hash result) := by
  simp only [releaseParked]
  cases hp : e.parkedPayload with
  | none => exact (Quiet.rfl' e).settles
  | some parked =>
    simp only
    split_ifs
    · exact answer_parked hp rfl
    · exact (Quiet.rfl' e).settles

theorem onTimeout_settles {parked : ParkedPayload} (hp : e.parkedPayload = some parked) :
    Settles e (e.onTimeout parked) := answer_parked hp rfl

theorem insertUnlocked_settles (e : ConsensusEngine E) (sched : StateRoot.Schedule) (hash : B256) :
    Settles e (e.insertUnlocked sched hash) := by
  simp only [insertUnlocked]
  split
  · exact Quiet.settles ⟨rfl, rfl, rfl, rfl⟩
  · rename_i block witness buffer _
    have htree : Quiet e { e with tree := ((e.tree.withBuffer buffer).onDownloadedBlock sched block witness).2 } :=
      ⟨rfl, rfl, rfl, rfl⟩
    exact (htree.trans (onMaybeTreeEvent_quiet _ _)).settles.trans (releaseParked_settles _ _ _)

theorem insertAll_settles (e : ConsensusEngine E) (sched : StateRoot.Schedule) (hashes : List B256) :
    Settles e (hashes.foldl (fun e hash => e.insertUnlocked sched hash) e) := by
  induction hashes generalizing e with
  | nil => exact (Quiet.rfl' e).settles
  | cons hash hashes ih => exact (insertUnlocked_settles e sched hash).trans (ih _)

theorem onDownloadOutcome_settles (e : ConsensusEngine E) (sched : StateRoot.Schedule) (data : DownloadData) :
    Settles e (e.onDownloadOutcome sched data).2 := by
  have hquiet := receiveOutcome_quiet e sched data
  simp only [onDownloadOutcome]
  cases hr : e.receiveOutcome sched data with
  | mk result e₁ =>
    rw [hr] at hquiet
    cases result with
    | error fatal => exact hquiet.settles
    | ok unlocked =>
      exact hquiet.settles.trans (insertAll_settles e₁ sched (sched.order.list unlocked))

/-- a request is settled, and nothing else changes -/
structure Serves (e e' : ConsensusEngine E) (request : ℕ × RequestKind) : Prop where
  fromBeaconEngine : e'.fromBeaconEngine = e.fromBeaconEngine
  handled : e'.handled = e.handled
  settled : e'.settled.Perm (request :: e.settled)

theorem send_serves (e : ConsensusEngine E) (tx : ℕ) (r : Response) : Serves e (e.send tx r) (tx, r.kind) := by
  refine ⟨rfl, rfl, ?_⟩
  simp only [ConsensusEngine.settled, answered, parkedRequest, send]
  rw [List.map_append, List.append_assoc]
  exact List.perm_middle

theorem Quiet.serves (h : Quiet e e') {request : ℕ × RequestKind} (hs : Serves e' e'' request) : Serves e e'' request :=
  ⟨hs.fromBeaconEngine.trans h.fromBeaconEngine, hs.handled.trans h.handled, h.settled ▸ hs.settled⟩

/-- a payload is answered or parked; only an engine without a parked payload parks one without losing another -/
theorem finishPayload_serves (hp : e.parkedPayload = none) (blockHash : B256) (hasWitness : Bool) (tx : ℕ)
    (answer : EngineTree.Answer) : Serves e (e.finishPayload blockHash hasWitness tx answer) (tx, .payload) := by
  unfold finishPayload
  split
  · exact send_serves e tx _
  · exact send_serves e tx _
  · rename_i outcome event
    have hquiet := onTreeEvent_quiet e event
    split
    · refine hquiet.serves ⟨rfl, rfl, ?_⟩
      have hnone := hquiet.parkedPayload.trans hp
      simp only [ConsensusEngine.settled, answered, parkedRequest]
      rw [hnone]
      simp [List.perm_append_singleton]
    · simp only
      split_ifs
      · exact hquiet.serves (send_serves _ tx _)
      · exact (hquiet.trans (onTreeEvent_quiet _ _)).serves (send_serves _ tx _)

theorem finishForkchoice_serves (e : ConsensusEngine E) (state : ForkchoiceState) (tx : ℕ)
    (answer : EngineTree.UpdateAnswer) : Serves e (e.finishForkchoice state tx answer) (tx, .forkchoice) := by
  simp only [finishForkchoice]
  split
  · exact send_serves e tx _
  · rename_i outcome event
    have htrack : Quiet e
        { e with tree := (e.tree.setLatest state outcome).emitEvent (.forkchoiceUpdated state outcome) } :=
      ⟨rfl, rfl, rfl, rfl⟩
    exact (htrack.trans (onMaybeTreeEvent_quiet _ _)).serves (send_serves _ tx _)

theorem onNewPayload_serves (hp : e.parkedPayload = none) (sched : StateRoot.Schedule)
    (payload : E.validator.ExecutionData) (tx : ℕ) : Serves e (e.onNewPayload sched payload tx) (tx, .payload) := by
  simp only [onNewPayload]
  generalize e.tree.blockBuffer.removeWitness (E.validator.blockHash payload) = removed
  obtain ⟨mw, buffer⟩ := removed
  have htree : Quiet e { e with tree := ((e.tree.withBuffer buffer).onNewPayload sched payload mw).2 } :=
    ⟨rfl, rfl, rfl, rfl⟩
  exact htree.serves (finishPayload_serves (htree.parkedPayload.trans hp) _ _ tx _)

theorem onForkchoiceUpdated_serves (e : ConsensusEngine E) (sched : StateRoot.Schedule) (state : ForkchoiceState)
    (attrs : Option E.validator.PayloadAttributes) (tx version : ℕ) :
    Serves e (e.onForkchoiceUpdated sched state attrs tx version) (tx, .forkchoice) := by
  have htree : Quiet e { e with tree := (e.tree.onForkchoiceUpdated sched state attrs version).2 } :=
    ⟨rfl, rfl, rfl, rfl⟩
  exact htree.serves (finishForkchoice_serves _ state tx _)

/-! ## What every event keeps -/

/-- messages are handled in the order of their arrival, none while a payload is parked, and what is settled, with the
requests `owed` that are in the engine's hands, is what has been handled -/
structure Served (arrived : List (BeaconEngineMessage E)) (owed : List (ℕ × RequestKind)) (e : ConsensusEngine E) :
    Prop where
  order : e.handled.map (·.1) ++ e.fromBeaconEngine = arrived
  unparked : ∀ x ∈ e.handled, x.2 = none
  once : (owed ++ e.settled).Perm e.requested

variable {arrived : List (BeaconEngineMessage E)}

theorem served_launch (database : RessDatabase) (genesis : Block) : Served [] [] (launch E database genesis) :=
  ⟨rfl, by simp [launch], List.Perm.refl _⟩

theorem Served.arrive {owed : List (ℕ × RequestKind)} (h : Served arrived owed e) (message : BeaconEngineMessage E) :
    Served (arrived ++ [message]) owed { e with fromBeaconEngine := e.fromBeaconEngine ++ [message] } := by
  refine ⟨?_, h.unparked, h.once⟩
  rw [← h.order, List.append_assoc]

theorem Served.settles (h : Served arrived [] e) (hs : Settles e e') : Served arrived [] e' := by
  refine ⟨?_, ?_, ?_⟩
  · rw [hs.handled, hs.fromBeaconEngine]
    exact h.order
  · rw [hs.handled]
    exact h.unparked
  · simp only [requested]
    rw [hs.handled]
    exact hs.settled.trans h.once

/-- the next message is taken while no payload is parked; its request is owed -/
theorem Served.take (h : Served arrived [] e) (hp : e.parkedPayload = none) {message : BeaconEngineMessage E}
    {messages : List (BeaconEngineMessage E)} (hq : e.fromBeaconEngine = message :: messages) :
    Served arrived message.request?.toList ({ e with fromBeaconEngine := messages }.note message) := by
  refine ⟨?_, ?_, ?_⟩
  · simp only [note]
    rw [← h.order, hq, List.map_append, List.append_assoc]
    rfl
  · intro x hx
    rcases List.mem_append.1 hx with hx | hx
    · exact h.unparked x hx
    · rw [List.mem_singleton.1 hx]
      exact hp
  · simp only [requested, note]
    rw [List.filterMap_append]
    have hone : [(message, e.parkedPayload)].filterMap (·.1.request?) = message.request?.toList := by
      cases hm : message.request? <;> simp [hm]
    simp only [hone]
    exact List.perm_append_comm.trans (h.once.append_right _)

theorem Served.serves {request : ℕ × RequestKind} (h : Served arrived [request] e) (hs : Serves e e' request) :
    Served arrived [] e' := by
  refine ⟨?_, ?_, ?_⟩
  · rw [hs.handled, hs.fromBeaconEngine]
    exact h.order
  · rw [hs.handled]
    exact h.unparked
  · simp only [requested]
    rw [hs.handled]
    exact hs.settled.trans h.once

/-- a message is handled: its request is settled -/
theorem Served.message (h : Served arrived [] e) (hp : e.parkedPayload = none) {message : BeaconEngineMessage E}
    {messages : List (BeaconEngineMessage E)} (hq : e.fromBeaconEngine = message :: messages)
    (sched : StateRoot.Schedule) :
    Served arrived [] ({ e with fromBeaconEngine := messages }.onEngineMessage sched message) := by
  have htake := h.take hp hq
  cases message with
  | newPayload payload tx =>
    have hnote : ({ e with fromBeaconEngine := messages }.note (.newPayload payload tx)).parkedPayload = none := hp
    exact htake.serves (onNewPayload_serves hnote sched payload tx)
  | forkchoiceUpdated state attrs tx version =>
    exact htake.serves (onForkchoiceUpdated_serves _ sched state attrs tx version)
  | transitionConfigurationExchanged => exact htake

theorem Served.pollMessage (h : Served arrived [] e) (hp : e.parkedPayload = none) (sched : StateRoot.Schedule) :
    Served arrived [] (e.pollMessage sched).2 := by
  simp only [ConsensusEngine.pollMessage]
  cases hq : e.fromBeaconEngine with
  | nil => exact h
  | cons message messages => exact h.message hp hq sched

/-- one pass of the loop: a message is handled only where no payload is parked, or its timeout has just been answered -/
theorem Served.pollOnce (h : Served arrived [] e) (io : Io) : Served arrived [] (e.pollOnce io).2 := by
  have hafter : Served arrived [] (e.afterPoll io) := h.settles (Quiet.settles ⟨rfl, rfl, rfl, rfl⟩)
  simp only [ConsensusEngine.pollOnce]
  cases e.delivered io with
  | some data =>
    have houtcome := hafter.settles (onDownloadOutcome_settles (e.afterPoll io) io.sched data)
    simp only
    cases hd : (e.afterPoll io).onDownloadOutcome io.sched data with
    | mk result e' =>
      rw [hd] at houtcome
      cases result <;> exact houtcome
  | none =>
    simp only
    simp only [pollParked]
    cases hp : (e.afterPoll io).parkedPayload with
    | none => exact hafter.pollMessage hp io.sched
    | some parked =>
      simp only
      split_ifs
      · exact (hafter.settles (onTimeout_settles hp)).pollMessage rfl io.sched
      · exact hafter

/-- a pass takes messages out of the queue only -/
theorem pollMessage_queue (hp : e.parkedPayload = none) (sched : StateRoot.Schedule) :
    ∀ message ∈ (e.pollMessage sched).2.fromBeaconEngine, message ∈ e.fromBeaconEngine := by
  simp only [ConsensusEngine.pollMessage]
  cases hq : e.fromBeaconEngine with
  | nil => simp [hq]
  | cons next messages =>
    have hrest : ({ e with fromBeaconEngine := messages }.onEngineMessage sched next).fromBeaconEngine = messages := by
      cases next with
      | newPayload payload tx =>
        have hnote : ({ e with fromBeaconEngine := messages }.note (.newPayload payload tx)).parkedPayload = none := hp
        exact (onNewPayload_serves hnote sched payload tx).fromBeaconEngine
      | forkchoiceUpdated state attrs tx version =>
        exact (onForkchoiceUpdated_serves _ sched state attrs tx version).fromBeaconEngine
      | transitionConfigurationExchanged => rfl
    intro message hmessage
    rw [hrest] at hmessage
    exact List.mem_cons_of_mem _ hmessage

theorem pollOnce_queue (e : ConsensusEngine E) (io : Io) :
    ∀ message ∈ (e.pollOnce io).2.fromBeaconEngine, message ∈ e.fromBeaconEngine := by
  simp only [ConsensusEngine.pollOnce]
  cases e.delivered io with
  | some data =>
    have hsettles := onDownloadOutcome_settles (e.afterPoll io) io.sched data
    simp only
    cases hd : (e.afterPoll io).onDownloadOutcome io.sched data with
    | mk result e' =>
      rw [hd] at hsettles
      intro message hmessage
      cases result <;> exact hsettles.fromBeaconEngine ▸ hmessage
  | none =>
    simp only
    simp only [pollParked]
    cases hp : (e.afterPoll io).parkedPayload with
    | none => exact pollMessage_queue hp io.sched
    | some parked =>
      simp only
      split_ifs
      · exact pollMessage_queue (e := (e.afterPoll io).onTimeout parked) rfl io.sched
      · exact fun message hmessage => hmessage

/-! ## Answered once -/

/-- answered once, as the kind of request it is, and not parked -/
structure AnsweredOnce (e : ConsensusEngine E) (request : ℕ × RequestKind) : Prop where
  once : (e.responses.map (·.1)).count request.1 = 1
  kind : request ∈ e.answered
  unparked : ∀ parked, e.parkedPayload = some parked → parked.tx ≠ request.1

/-- the parked payload, not answered -/
structure Waits (e : ConsensusEngine E) (request : ℕ × RequestKind) : Prop where
  unanswered : request.1 ∉ e.responses.map (·.1)
  kind : request.2 = .payload
  parked : ∃ parked, e.parkedPayload = some parked ∧ parked.tx = request.1

theorem request_tx (message : BeaconEngineMessage E) : message.request?.map (·.1) = message.tx? := by
  cases message <;> rfl

/-- the response channels of what is settled are those of the messages handled -/
theorem Served.channels (h : Served arrived [] e) :
    (e.responses.map (·.1) ++ e.parkedPayload.toList.map (·.tx)).Perm (e.handled.filterMap (·.1.tx?)) := by
  have hperm := h.once.map (·.1)
  have hrequested : e.requested.map (·.1) = e.handled.filterMap (·.1.tx?) := by
    simp only [requested]
    rw [List.map_filterMap]
    simp only [request_tx]
  have hsettled : e.settled.map (·.1) = e.responses.map (·.1) ++ e.parkedPayload.toList.map (·.tx) := by
    simp only [ConsensusEngine.settled, answered, parkedRequest]
    rw [List.map_append, List.map_map, List.map_map]
    rfl
  rw [hrequested, List.nil_append, hsettled] at hperm
  exact hperm

theorem Served.answered_or_waits (h : Served arrived [] e) (htx : (arrived.filterMap BeaconEngineMessage.tx?).Nodup)
    {x : BeaconEngineMessage E × Option ParkedPayload} (hx : x ∈ e.handled) {request : ℕ × RequestKind}
    (hrequest : x.1.request? = some request) : AnsweredOnce e request ∨ Waits e request := by
  have hchannels := h.channels
  have hnodup : (e.handled.filterMap (·.1.tx?)).Nodup := by
    have harrived : (arrived.filterMap BeaconEngineMessage.tx?) =
        e.handled.filterMap (·.1.tx?) ++ e.fromBeaconEngine.filterMap BeaconEngineMessage.tx? := by
      rw [← h.order, List.filterMap_append, List.filterMap_map]
      rfl
    rw [harrived] at htx
    exact (List.nodup_append.1 htx).1
  have hall := hchannels.nodup_iff.2 hnodup
  have hdisjoint := List.disjoint_of_nodup_append hall
  have hmem : request ∈ e.settled := h.once.mem_iff.2 (List.mem_filterMap.2 ⟨x, hx, hrequest⟩)
  rcases List.mem_append.1 hmem with hans | hparked
  · refine Or.inl ⟨?_, hans, ?_⟩
    · obtain ⟨r, hr, rfl⟩ := List.mem_map.1 hans
      exact List.count_eq_one_of_mem (List.nodup_append.1 hall).1 (List.mem_map_of_mem hr)
    · intro parked hp heq
      obtain ⟨r, hr, rfl⟩ := List.mem_map.1 hans
      exact hdisjoint (List.mem_map_of_mem hr) (by rw [hp]; exact List.mem_singleton.2 heq.symm)
  · obtain ⟨parked, hp, rfl⟩ := List.mem_map.1 hparked
    refine Or.inr ⟨?_, rfl, parked, Option.mem_toList.1 hp, rfl⟩
    exact fun hin => hdisjoint hin (List.mem_map_of_mem hp)

end ConsensusEngine

namespace Node

open ConsensusEngine (Served served_launch AnsweredOnce Waits)

variable {E : Env}

theorem served_step {arrived : List (BeaconEngineMessage E)} {n : Node E} (h : Served arrived [] n.engine)
    (event : NodeEvent E) : Served (arrived ++ arrivals [event]) [] (n.step event).engine := by
  cases event with
  | arrive message => exact h.arrive message
  | poll io =>
    have hpoll := h.pollOnce io
    rw [show arrivals [NodeEvent.poll io] = ([] : List (BeaconEngineMessage E)) from rfl, List.append_nil]
    simp only [step]
    cases n.terminated with
    | some fatal => exact h
    | none =>
      simp only
      cases hp : n.engine.pollOnce io with
      | mk polled engine =>
        rw [hp] at hpoll
        cases polled <;> exact hpoll

theorem served_run {arrived : List (BeaconEngineMessage E)} {n : Node E} (h : Served arrived [] n.engine)
    (events : List (NodeEvent E)) : Served (arrived ++ arrivals events) [] (Run.run step n events).engine := by
  induction events generalizing arrived n with
  | nil => simpa [arrivals] using h
  | cons event events ih =>
    have happend : arrivals (event :: events) = arrivals [event] ++ arrivals events := by
      simp only [arrivals]
      rw [← List.filterMap_append]
      rfl
    rw [Run.run_cons, happend, ← List.append_assoc]
    exact ih (served_step h event)

theorem step_queue (n : Node E) (event : NodeEvent E) :
    ∀ message ∈ (n.step event).engine.fromBeaconEngine,
      message ∈ n.engine.fromBeaconEngine ∨ event = .arrive message := by
  intro message hmessage
  cases event with
  | arrive arrived =>
    rcases List.mem_append.1 hmessage with hm | hm
    · exact Or.inl hm
    · rw [List.mem_singleton.1 hm]
      exact Or.inr rfl
  | poll io =>
    have hpoll := ConsensusEngine.pollOnce_queue n.engine io
    simp only [step] at hmessage
    cases ht : n.terminated with
    | some fatal =>
      rw [ht] at hmessage
      exact Or.inl hmessage
    | none =>
      rw [ht] at hmessage
      simp only at hmessage
      cases hp : n.engine.pollOnce io with
      | mk polled engine =>
        rw [hp] at hpoll hmessage
        refine Or.inl (hpoll message ?_)
        cases polled <;> exact hmessage

/-- **Every request is answered once.** In every run of a node whose messages carry response channels of their own:
messages are handled only while no payload is parked; a handled request has been answered once, as the kind of request
it is, or it is the parked payload and has not been answered; and messages are handled in the order of their arrival. -/
theorem requests_answered_once (database : RessDatabase) (genesis : Block) (events : List (NodeEvent E))
    (htx : ((arrivals events).filterMap BeaconEngineMessage.tx?).Nodup) :
    (∀ x ∈ (Run.run step (launch E database genesis) events).engine.handled, x.2 = none) ∧
      (∀ x ∈ (Run.run step (launch E database genesis) events).engine.handled, ∀ request, x.1.request? = some request →
        AnsweredOnce (Run.run step (launch E database genesis) events).engine request ∨
          Waits (Run.run step (launch E database genesis) events).engine request) ∧
      (Run.run step (launch E database genesis) events).engine.handled.map (·.1) ++
        (Run.run step (launch E database genesis) events).engine.fromBeaconEngine = arrivals events := by
  have hserved := served_run (n := launch E database genesis) (served_launch database genesis) events
  rw [List.nil_append] at hserved
  exact ⟨hserved.unparked, fun x hx request hr => hserved.answered_or_waits htx hx hr, hserved.order⟩

/-! ## A payload without a witness -/

/-- a pass in which no request is ready -/
def idle (timeout : Bool) : NodeEvent smallEnv :=
  .poll ⟨Network.silent, timeout, StateRoot.sortedSchedule, none, none⟩

/-- a payload without a witness is parked, and a forkchoice update waits behind it until the timeout -/
def parkedRun (timeout : Bool) : List (NodeEvent smallEnv) :=
  [.arrive (.newPayload (Chain.mainBlock 1, none) 1), .arrive (.forkchoiceUpdated ⟨2, 0, 0⟩ none 2 3), idle false,
    idle timeout]

example : (Run.run step (launch smallEnv ⟨∅, none, none⟩ (Chain.mainBlock 0)) (parkedRun false)).engine.parkedPayload =
    some ⟨2, 1⟩ := by decide +kernel

/-- after the timeout both are answered, in this order -/
theorem requests_answered_once_timeout :
    (Run.run step (launch smallEnv ⟨∅, none, none⟩ (Chain.mainBlock 0)) (parkedRun true)).engine.responses.map (·.1) =
        [1, 2] ∧
      ∀ x ∈ (Run.run step (launch smallEnv ⟨∅, none, none⟩ (Chain.mainBlock 0)) (parkedRun true)).engine.handled,
        ∀ request, x.1.request? = some request →
          AnsweredOnce (Run.run step (launch smallEnv ⟨∅, none, none⟩ (Chain.mainBlock 0)) (parkedRun true)).engine
              request ∨
            Waits (Run.run step (launch smallEnv ⟨∅, none, none⟩ (Chain.mainBlock 0)) (parkedRun true)).engine request :=
  ⟨by decide +kernel, (requests_answered_once ⟨∅, none, none⟩ (Chain.mainBlock 0) (parkedRun true) (by decide)).2.1⟩

end Node

end Ress
