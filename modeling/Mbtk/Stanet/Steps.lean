import Mbtk.Stanet.Daemon
import Mbtk.Stanet.SessionLaws

namespace Mbtk.Stanet

/-- The arguments that `stanet_session_open` takes. -/
def ValidOpen (host : Option (List UInt8)) (port : ℤ) : Prop :=
  ∃ name, host = some name ∧ 0 < port ∧ 0 < name.length ∧ name.length ≤ SESSION_HOST_MAX_LEN

def SessionState.requested : SessionState → Bool
  | .writing | .reading | .closing => true
  | _ => false

def Event.isCall : Event → Bool
  | .sessionOpen _ _ | .sessionWrite _ _ _ | .sessionRead _ _ | .sessionClose _ => true
  | _ => false

namespace State

variable {s t : State} {e : Event}

@[simp] theorem sessions_update_same (s : State) (i : Fin SESSION_MAX_COUNT) (session : Session) :
    (s.update i session).sessions i = session :=
  Function.update_self ..

theorem sessions_update_ne (s : State) {i j : Fin SESSION_MAX_COUNT} (session : Session)
    (h : j ≠ i) : (s.update i session).sessions j = s.sessions j :=
  Function.update_of_ne h ..

@[simp] theorem update_sending (s : State) (i : Fin SESSION_MAX_COUNT) (session : Session) :
    (s.update i session).sending = s.sending := rfl

@[simp] theorem update_serial (s : State) (i : Fin SESSION_MAX_COUNT) (session : Session) :
    (s.update i session).serial = s.serial := rfl

@[simp] theorem update_bound (s : State) (i : Fin SESSION_MAX_COUNT) (session : Session) :
    (s.update i session).bound = s.bound := rfl

@[simp] theorem update_reports (s : State) (i : Fin SESSION_MAX_COUNT) (session : Session) :
    (s.update i session).reports = s.reports := rfl

@[simp] theorem update_crashed (s : State) (i : Fin SESSION_MAX_COUNT) (session : Session) :
    (s.update i session).crashed = s.crashed := rfl

theorem forall_sessions_update {P : Fin SESSION_MAX_COUNT → Session → Prop}
    {i : Fin SESSION_MAX_COUNT} {session : Session} (h : ∀ j, P j (s.sessions j))
    (hi : P i session) (j : Fin SESSION_MAX_COUNT) : P j ((s.update i session).sessions j) := by
  by_cases hj : j = i
  · subst hj
    simpa using hi
  · rw [sessions_update_ne s session hj]
    exact h j

def added (s : State) (send : Send) : State :=
  { s with sending := s.sending ++ [send], serial := s.serial + 1 }

/-- All that a step can be.  A refused call leaves the state as it is. -/
inductive Step (s : State) : Event → State → Prop
  | refused (e : Event) (hcall : e.isCall)
      (h : ∀ host port, e = .sessionOpen host port → ValidOpen host port →
        s.sessionGetUsable = none) : Step s e s
  | chosen (host : Option (List UInt8)) (port : ℤ) (i : Fin SESSION_MAX_COUNT) (len : ℤ)
      (data : List UInt8) (hvalid : ValidOpen host port) (hi : s.sessionGetUsable = some i) :
      Step s (.sessionOpen host port)
        ({ s with bound := (s.serial, i) :: s.bound }.added
          ⟨i, ⟨s.serial, .socketOpen, len, data⟩, none⟩)
  | requested (e : Event) (i : Fin SESSION_MAX_COUNT) (msgId : MsgId) (len : ℤ)
      (data : List UInt8) (state : SessionState) (hcall : e.isCall)
      (he : ∀ host port, e ≠ .sessionOpen host port)
      (husable : (s.sessions i).state.usable)
      (hmsgId : msgId = .socketWrite ∨ msgId = .socketRead) (hrequested : state.requested) :
      Step s e (s.added ⟨i, ⟨s.serial, msgId, len, data⟩, some state⟩)
  | marked (send : Send) (state : SessionState) (hmem : send ∈ s.sending)
      (hmark : send.mark = some state) :
      Step s (.mark send)
        { s.update send.session { s.sessions send.session with state } with
          sending := { send with mark := none } :: s.sending.erase send }
  | queued (send : Send) (hmem : send ∈ s.sending) (hmark : send.mark = none)
      (hmutex : (s.sessions send.session).worker.hasMutex = false) :
      Step s (.put send)
        { s.update send.session ((s.sessions send.session).put send.msg) with
          sending := s.sending.erase send }
  | started (i : Fin SESSION_MAX_COUNT) (hworker : (s.sessions i).worker = .starting) :
      Step s (.start i) (s.update i (s.sessions i).wait)
  | woke (i : Fin SESSION_MAX_COUNT) (hworker : (s.sessions i).worker = .waiting) :
      Step s (.wake i) (s.update i { s.sessions i with worker := .woken false })
  | poppedNothing (i : Fin SESSION_MAX_COUNT) (signalled : Bool)
      (hworker : (s.sessions i).worker = .woken signalled) (hmsgQ : (s.sessions i).msgQ = []) :
      Step s (.pop i) { s with crashed := true }
  | popped (i : Fin SESSION_MAX_COUNT) (signalled : Bool) (msg : Msg) (msgQ : List Msg)
      (hworker : (s.sessions i).worker = .woken signalled)
      (hmsgQ : (s.sessions i).msgQ = msg :: msgQ) :
      Step s (.pop i)
        { s.update i ((s.sessions i).take msg msgQ) with
          overrun := ¬ LogFits threadRun (msg.line (s.sessions i).threadId) }
  | connected (i : Fin SESSION_MAX_COUNT) (calls : SysCalls) (msg : Msg)
      (hworker : (s.sessions i).worker = .handling msg) (hmsgId : msg.msgId = .socketOpen) :
      Step s (.connect i calls)
        { s.update i ((s.sessions i).connect msg calls) with
          openFds := s.openFds ++ ((s.sessions i).opened calls).toList }
  | handled (i : Fin SESSION_MAX_COUNT) (calls : SysCalls) (msg : Msg) (h : Handled)
      (hh : Session.Handles (s.sessions i) i msg calls h) :
      Step s (.handle i calls)
        { s.update i h.session.wait with
          bound := if h.wasReset then s.bound.filter (·.2 ≠ i) else s.bound
          openFds := s.openFds.filter (some · ≠ h.closed)
          reports := s.reports ++ [h.report]
          overrun := ¬ h.report.callback.LogFits }

theorem sendMsg_inv {i : Fin SESSION_MAX_COUNT} {msgId : MsgId} {data : Option (List UInt8)}
    {len : ℤ} {mark : Option SessionState} (h : s.sendMsg i msgId data len mark = some t) :
    ∃ bytes, t = s.added ⟨i, ⟨s.serial, msgId, len, bytes⟩, mark⟩ := by
  obtain ⟨bytes, -, h⟩ := Option.bind_eq_some_iff.mp h
  exact ⟨bytes, (Option.some.inj h).symm⟩

theorem stanetSessionOpen_step {host : Option (List UInt8)} {port : ℤ}
    (h : s.stanetSessionOpen host port = some t) : Step s (.sessionOpen host port) t := by
  unfold stanetSessionOpen at h
  cases host with
  | none =>
    cases h
    refine .refused _ rfl fun host port he => ?_
    cases he
    rintro ⟨name, hname, -⟩
    cases hname
  | some name =>
    dsimp only at h
    split at h
    case isTrue hinvalid =>
      cases h
      refine .refused _ rfl fun host port he => ?_
      cases he
      rintro ⟨name', hname, hport, hpos, hlen⟩
      cases hname
      omega
    case isFalse hinvalid =>
      have hvalid : ValidOpen (some name) port := ⟨name, rfl, by omega, by omega, by omega⟩
      cases hi : s.sessionGetUsable with
      | none =>
        rw [hi] at h
        cases h
        exact .refused _ rfl fun _ _ _ _ => hi
      | some i =>
        rw [hi] at h
        dsimp only at h
        split_ifs at h
        obtain ⟨bytes, rfl⟩ := sendMsg_inv h
        exact .chosen _ _ i _ bytes hvalid hi

theorem request_step {sessionId : ℤ} {msgId : MsgId} {data : Option (List UInt8)} {len : ℤ}
    {state : SessionState} (hcall : e.isCall) (he : ∀ host port, e ≠ .sessionOpen host port)
    (hmsgId : msgId = .socketWrite ∨ msgId = .socketRead) (hrequested : state.requested)
    (h : s.request sessionId msgId data len state = some t) : Step s e t := by
  have hrefused : Step s e s := .refused e hcall fun host port heq => absurd heq (he host port)
  unfold request at h
  split at h
  · cases h
    exact hrefused
  · split_ifs at h with husable
    · obtain ⟨bytes, rfl⟩ := sendMsg_inv h
      exact .requested e _ msgId len bytes state hcall he husable hmsgId hrequested
    · cases h
      exact hrefused

theorem mark_step {send : Send} (h : s.mark send = some t) : Step s (.mark send) t := by
  unfold mark at h
  split at h
  · cases h
  case h_2 state hmark =>
    split_ifs at h with hmem
    cases h
    exact .marked send state hmem hmark

theorem msgQueuePut_step {send : Send} (h : s.msgQueuePut send = some t) :
    Step s (.put send) t := by
  unfold msgQueuePut at h
  dsimp only at h
  split_ifs at h with hput
  cases h
  exact .queued send hput.1 hput.2.1 hput.2.2

theorem msgQueuePop_step {i : Fin SESSION_MAX_COUNT} (h : s.msgQueuePop i = some t) :
    Step s (.pop i) t := by
  unfold msgQueuePop at h
  dsimp only at h
  split at h
  case h_1 signalled hworker =>
    split at h
    case h_1 hmsgQ =>
      cases h
      exact .poppedNothing i signalled hworker hmsgQ
    case h_2 msg msgQ hmsgQ =>
      cases h
      exact .popped i signalled msg msgQ hworker hmsgQ
  · cases h

theorem connectMsg_step {i : Fin SESSION_MAX_COUNT} {calls : SysCalls}
    (h : s.connectMsg i calls = some t) : Step s (.connect i calls) t := by
  unfold connectMsg at h
  dsimp only at h
  split at h
  case h_1 msg hworker =>
    split_ifs at h with hconnect
    cases h
    exact .connected i calls msg hworker hconnect.1
  · cases h

theorem handleMsg_step {i : Fin SESSION_MAX_COUNT} {calls : SysCalls}
    (h : s.handleMsg i calls = some t) : Step s (.handle i calls) t := by
  obtain ⟨handled, hh, h⟩ := Option.bind_eq_some_iff.mp h
  obtain ⟨msg, hh⟩ := Session.handles_of_handle hh
  cases h
  exact .handled i calls msg handled hh

theorem step_of_react (h : s.react e = some t) : Step s e t := by
  cases e with
  | sessionOpen host port => exact stanetSessionOpen_step h
  | sessionWrite sessionId buf len =>
    exact request_step rfl (fun _ _ h => by cases h) (.inl rfl) rfl h
  | sessionRead sessionId len =>
    exact request_step rfl (fun _ _ h => by cases h) (.inr rfl) rfl h
  | sessionClose sessionId => exact request_step rfl (fun _ _ h => by cases h) (.inr rfl) rfl h
  | mark send => exact mark_step h
  | put send => exact msgQueuePut_step h
  | start i =>
    unfold react startWait at h
    dsimp only at h
    split_ifs at h with hworker
    cases h
    exact .started i hworker
  | wake i =>
    unfold react spuriousWake at h
    dsimp only at h
    split_ifs at h with hworker
    cases h
    exact .woke i hworker
  | pop i => exact msgQueuePop_step h
  | connect i calls => exact connectMsg_step h
  | handle i calls => exact handleMsg_step h

def next (s : State) (e : Event) : Option State :=
  if s.crashed ∨ s.overrun then none else s.react e

theorem step_of_next (s : State) (e : Event) (t : State) (h : s.next e = some t) :
    system.step s e t := by
  unfold next at h
  split_ifs at h with hstops
  rw [not_or] at hstops
  exact ⟨by simpa using hstops.1, by simpa using hstops.2, h⟩

end State

def sampleOpen : Event := .sessionOpen (some [0x68]) 80

def sampleSend (i : Fin SESSION_MAX_COUNT) (serial : ℕ) : Send :=
  ⟨i, ⟨serial, .socketOpen, 4, [0x68, 0x3A, 0x38, 0x30]⟩, none⟩

/-- System calls with which a connection to the host is set up at once. -/
def sampleCalls (sockfd : ℕ) : SysCalls where
  socket := some sockfd
  getFlags := true
  setFlags := true
  gethostbyname := true
  connect := .connected
  select := .ready false true
  getsockopt := none
  transfers := []

def sampleInit : State := State.init fun i => i.val + 1

theorem reachable_sampleInit : State.system.Reachable sampleInit := .init ⟨_, rfl⟩

end Mbtk.Stanet
