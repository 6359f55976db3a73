import Mbtk.Stanet.Steps

namespace Mbtk.Stanet

open Lib

namespace Session

variable {session : Session} {id : Fin SESSION_MAX_COUNT} {msg : Msg} {calls : SysCalls}

/-- Neither a message on its way to a worker nor a callback is a CLOSE. -/
structure NoClose (session : Session) : Prop where
  msgQ : ∀ msg ∈ session.msgQ, msg.msgId ≠ .socketClose
  worker : ∀ msg, session.worker = .handling msg → msg.msgId ≠ .socketClose

variable {worker : Worker}

theorem signal_eq_handling (h : worker.signal = .handling msg) :
    worker = .handling msg := by
  cases worker with
  | waiting => cases h
  | starting => cases h
  | woken => cases h
  | handling => exact h
  | deciding => cases h

theorem NoClose.put (h : session.NoClose) (hmsg : msg.msgId ≠ .socketClose) :
    (session.put msg).NoClose where
  msgQ other hother := by
    rcases List.mem_append.mp hother with hother | hother
    · exact h.msgQ other hother
    · exact List.mem_singleton.mp hother ▸ hmsg
  worker other hother := h.worker other (signal_eq_handling hother)

theorem NoClose.take {msgQ : List Msg} (h : session.NoClose) (hmsgQ : session.msgQ = msg :: msgQ) :
    (session.take msg msgQ).NoClose where
  msgQ other hother := by
    rw [take_msgQ] at hother
    exact h.msgQ other (hmsgQ ▸ List.mem_cons_of_mem _ hother)
  worker other hother := by
    rw [take_worker] at hother
    cases hother
    exact h.msgQ msg (hmsgQ ▸ List.mem_cons_self)

theorem NoClose.connect (h : session.NoClose) (msg : Msg) (calls : SysCalls) :
    (session.connect msg calls).NoClose where
  msgQ other hother := by
    change other ∈ (session.afterOpen calls).msgQ at hother
    rw [(afterOpen_frame session calls).msgQ] at hother
    exact h.msgQ other hother
  worker other hother := by cases hother

theorem NoClose.handle {handled : Handled} (h : session.NoClose)
    (hh : Handles session id msg calls handled) : handled.session.wait.NoClose where
  msgQ other hother := by
    change other ∈ handled.session.msgQ at hother
    rw [hh.msgQ] at hother
    split_ifs at hother
    · cases hother
    · exact h.msgQ other hother
  worker other hother := by cases hother

theorem Handles.callback_ne_close {handled : Handled} (h : session.NoClose)
    (hh : Handles session id msg calls handled) :
    handled.report.callback.msgId ≠ .socketClose := by
  cases hh with
  | opened => exact fun h => by cases h
  | refused => exact fun h => by cases h
  | transfer _ _ _ hworker => exact h.worker msg hworker
  | closed hworker hid => exact absurd hid (h.worker msg hworker)

end Session

namespace State

variable {s t u : State} {e : Event} {i : Fin SESSION_MAX_COUNT}

/-- Neither a message on its way to a worker nor a callback is a CLOSE. -/
structure NoClose (s : State) : Prop where
  sending : ∀ send ∈ s.sending, send.msg.msgId ≠ .socketClose
  sessions : ∀ i, (s.sessions i).NoClose
  reports : ∀ report ∈ s.reports, report.callback.msgId ≠ .socketClose

theorem noClose_step (h : s.NoClose) (hstep : s.Step e t) : t.NoClose := by
  have hadded : ∀ send : Send, send.msg.msgId ≠ .socketClose →
      ∀ other ∈ s.sending ++ [send], other.msg.msgId ≠ .socketClose := by
    intro send hsend other hother
    rcases List.mem_append.mp hother with hother | hother
    · exact h.sending other hother
    · exact List.mem_singleton.mp hother ▸ hsend
  cases hstep with
  | refused => exact h
  | chosen host port i len data =>
    exact ⟨hadded _ fun h => (by cases h), h.sessions, h.reports⟩
  | requested e i msgId len data state hcall he husable hmsgId =>
    refine ⟨hadded _ ?_, h.sessions, h.reports⟩
    rcases hmsgId with rfl | rfl <;> exact fun h => by cases h
  | marked send state hmem =>
    have hsession := h.sessions send.session
    refine ⟨fun other hother => ?_,
      forall_sessions_update h.sessions ⟨hsession.msgQ, hsession.worker⟩, h.reports⟩
    rcases List.mem_cons.mp hother with rfl | hother
    · exact h.sending send hmem
    · exact h.sending other (List.mem_of_mem_erase hother)
  | queued send hmem =>
    exact ⟨fun other hother => h.sending other (List.mem_of_mem_erase hother),
      forall_sessions_update h.sessions ((h.sessions _).put (h.sending send hmem)), h.reports⟩
  | started i =>
    exact ⟨h.sending, forall_sessions_update h.sessions
      ⟨(h.sessions i).msgQ, fun _ hworker => by cases hworker⟩, h.reports⟩
  | woke i =>
    exact ⟨h.sending, forall_sessions_update h.sessions
      ⟨(h.sessions i).msgQ, fun _ hworker => by cases hworker⟩, h.reports⟩
  | poppedNothing => exact ⟨h.sending, h.sessions, h.reports⟩
  | popped i signalled msg msgQ hworker hmsgQ =>
    exact ⟨h.sending, forall_sessions_update h.sessions ((h.sessions i).take hmsgQ), h.reports⟩
  | connected i calls msg =>
    exact ⟨h.sending, forall_sessions_update h.sessions ((h.sessions i).connect msg calls),
      h.reports⟩
  | handled i calls msg handled hh =>
    refine ⟨h.sending, forall_sessions_update h.sessions ((h.sessions i).handle hh), ?_⟩
    intro report hreport
    rcases List.mem_append.mp hreport with hreport | hreport
    · exact h.reports report hreport
    · rw [List.mem_singleton.mp hreport]
      exact hh.callback_ne_close (h.sessions i)

theorem noClose_of_reachable (hs : system.Reachable s) : s.NoClose := by
  refine Lib.System.Reachable.invariant ?_ ?_ hs
  · rintro s ⟨threadIds, rfl⟩
    exact ⟨fun _ h => (by cases h), fun _ => ⟨fun _ h => (by cases h), fun _ h => (by cases h)⟩,
      fun _ h => (by cases h)⟩
  · exact fun s e t h hstep => noClose_step h (step_of_react hstep.2.2)

/-- A call of `stanet_session_close` for session `i` in `s` returns 0, and in the step from `t`
to `u` the worker of the session handles the message of the call. -/
structure CloseHandled (s t u : State) (i : Fin SESSION_MAX_COUNT) : Prop where
  usable : (s.sessions i).state.usable
  made : ∃ sessionId s' es, sessionGet sessionId = some i ∧
    system.step s (.sessionClose sessionId) s' ∧ system.Run s' es t
  handled : ∃ msg calls, (t.sessions i).worker = .handling msg ∧ msg.serial = s.serial ∧
    system.step t (.handle i calls) u

/-- What the call numbered `serial` is meant to have brought about in `u`. -/
structure Released (t u : State) (i : Fin SESSION_MAX_COUNT) (serial : ℕ) : Prop where
  callback : u.reports.countP
    (fun report => report.msg.serial = serial ∧ report.callback.msgId = .socketClose) = 1
  closed : ∀ sockfd ∈ (t.sessions i).sockfd, sockfd ∉ u.openFds
  sockfd : (u.sessions i).sockfd = none
  msgQ : (u.sessions i).msgQ = []
  state : (u.sessions i).state = .unused

/-- No call of `stanet_session_close` releases its session. -/
theorem not_released (hs : system.Reachable s) (h : CloseHandled s t u i) :
    ¬ Released t u i s.serial := by
  obtain ⟨sessionId, s', es, -, hcall, hrun⟩ := h.made
  obtain ⟨msg, calls, -, -, hhandle⟩ := h.handled
  have hu : u.NoClose := noClose_of_reachable (((hs.step hcall).run hrun).step hhandle)
  intro hreleased
  have hcount := hreleased.callback
  rw [List.countP_eq_zero.mpr fun report hreport => by simp [hu.reports report hreport]] at hcount
  cases hcount

def closeSend (serial : ℕ) (mark : Option SessionState) : Send :=
  ⟨0, ⟨serial, .socketRead, 0, []⟩, mark⟩

theorem closeHandled_sample : ∃ s t u, system.Reachable s ∧ CloseHandled s t u 0 ∧
    (u.sessions 0).state = .closing := by
  let opens : List Event := [.start 0, sampleOpen, .put (sampleSend 0 0), .pop 0,
    .connect 0 (sampleCalls 3), .handle 0 (sampleCalls 3)]
  let closes : List Event := [.mark (closeSend 1 (some .closing)), .put (closeSend 1 none), .pop 0]
  have hrun : (opens.foldlM next sampleInit).any (fun s => s.serial = 1 ∧
      (s.sessions 0).state.usable ∧ (s.next (.sessionClose 0)).any fun s' =>
      (closes.foldlM next s').any fun t =>
        (t.sessions 0).worker = .handling (closeSend 1 none).msg ∧
        (t.next (.handle 0 (sampleCalls 4))).any fun u => (u.sessions 0).state = .closing) := by
    decide
  obtain ⟨s, hs, h⟩ := reachable_sampleInit.of_foldlM step_of_next hrun
  obtain ⟨hserial, husable, h⟩ := of_decide_eq_true h
  obtain ⟨s', hs', h⟩ := (Option.any_eq_true _ _).mp h
  obtain ⟨t, ht, h⟩ := (Option.any_eq_true _ _).mp h
  obtain ⟨hworker, h⟩ := of_decide_eq_true h
  obtain ⟨u, hu, h⟩ := (Option.any_eq_true _ _).mp h
  exact ⟨s, t, u, hs, ⟨husable, ⟨0, s', _, rfl, step_of_next _ _ _ hs',
    .of_foldlM step_of_next ht⟩, ⟨_, _, hworker, hserial.symm, step_of_next _ _ _ hu⟩⟩,
    of_decide_eq_true h⟩

theorem not_released_sample : ∃ s t u, CloseHandled s t u 0 ∧ ¬ Released t u 0 s.serial := by
  obtain ⟨s, t, u, hs, h, -⟩ := closeHandled_sample
  exact ⟨s, t, u, h, not_released hs h⟩

/-- The session of the sample is still CLOSING. -/
theorem not_forall_released : ¬ ∀ s t u i, system.Reachable s → CloseHandled s t u i →
    Released t u i s.serial := by
  intro hall
  obtain ⟨s, t, u, hs, h, hstate⟩ := closeHandled_sample
  cases hstate.symm.trans (hall s t u 0 hs h).state

end State

end Mbtk.Stanet
