import Mbtk.Stanet.Steps

namespace Mbtk.Stanet

open Lib

/-- The operation did what it was asked for. -/
def Report.Completed (report : Report) : Prop :=
  match report.msg.msgId with
  | .socketOpen => report.ended = .opened
  | .socketWrite | .socketRead => (report.moved : ℤ) = report.msg.dataLen
  | .socketClose => True

/-- The callback for an OPEN, a WRITE or a READ says SUCCESS exactly of a completed operation. -/
def Report.Truthful (report : Report) : Prop :=
  report.msg.msgId ≠ .socketClose → (report.callback.err = .success ↔ report.Completed)

namespace Session

variable {session : Session} {id : Fin SESSION_MAX_COUNT} {msg : Msg} {calls : SysCalls}
  {handled : Handled}

/-- `socket_open` fails on one of the ways that set no error, or is not called, on a session without
an error. -/
def OpensSilently (session : Session) (calls : SysCalls) : Prop :=
  session.err = .success ∧ session.opens calls = false ∧ (session.port > 0 → calls.silent)

/-- A WRITE of a negative length, or a READ at the end of the stream, on a session without an
error. -/
def FailsSilently (session : Session) (calls : SysCalls) : Prop :=
  session.err = .success ∧
    match session.worker with
    | .handling msg =>
      msg.msgId = .socketWrite ∧ msg.dataLen < 0 ∨
        msg.msgId = .socketRead ∧ EndsEarly msg.dataLen calls.transfers
    | _ => False

/-- The callback for an OPEN that is to be decided will be truthful. -/
def Decides (session : Session) : Prop :=
  match session.worker with
  | .deciding _ => session.state = .opened ∨ session.err ≠ .success
  | _ => True

/-- A client may set the state. -/
def Settable (session : Session) : Prop :=
  match session.worker with
  | .deciding _ => session.err ≠ .success
  | _ => True

instance (session : Session) (calls : SysCalls) : Decidable (session.OpensSilently calls) :=
  inferInstanceAs (Decidable (_ ∧ _ ∧ _))

instance (session : Session) (calls : SysCalls) : Decidable (session.FailsSilently calls) := by
  unfold FailsSilently
  split <;> infer_instance

instance (session : Session) : Decidable session.Decides := by
  unfold Decides
  split <;> infer_instance

instance (session : Session) : Decidable session.Settable := by
  unfold Settable
  split <;> infer_instance

theorem truthful_transfer {count : ℕ} {failed : Bool} {data : Option (List UInt8)}
    (hid : msg.msgId = .socketWrite ∨ msg.msgId = .socketRead)
    (hfailed : failed = true → (count : ℤ) ≠ msg.dataLen) :
    (session.handleTransfer id msg count failed data).report.Truthful ↔
      ¬ (session.err = .success ∧ failed = false ∧ (count : ℤ) ≠ msg.dataLen) := by
  have hcompleted : (session.handleTransfer id msg count failed data).report.Completed ↔
      (count : ℤ) = msg.dataLen := by
    unfold Report.Completed handleTransfer
    rcases hid with hid | hid <;> simp only [hid]
  have hne : msg.msgId ≠ .socketClose := by
    rcases hid with hid | hid <;> simp [hid]
  have htruthful : (session.handleTransfer id msg count failed data).report.Truthful ↔
      ((session.handleTransfer id msg count failed data).report.callback.err = .success ↔
        (count : ℤ) = msg.dataLen) := by
    rw [← hcompleted]
    exact ⟨fun h => h hne, fun h _ => h⟩
  rw [htruthful]
  unfold handleTransfer
  dsimp only
  by_cases hcount : (count : ℤ) = msg.dataLen
  · simp [hcount]
  · cases failed with
    | true => simp [hcount]
    | false => simp [hcount]

/-- The callback for a message is truthful unless its operation fails silently. -/
theorem Handles.truthful (hh : Handles session id msg calls handled) :
    handled.report.Truthful ↔ session.Decides ∧ ¬ session.FailsSilently calls := by
  unfold Decides FailsSilently
  cases hh with
  | opened hworker hid hstate =>
    simp [Report.Truthful, Report.Completed, hid, hworker, hstate]
  | refused hworker hid hstate =>
    simp [Report.Truthful, Report.Completed, hid, hworker, hstate]
  | transfer count failed data hworker hloop =>
    simp only [hworker, true_and]
    rcases hloop with ⟨hid, hloop⟩ | ⟨hid, hlen, buf, hloop, rfl⟩
    · have hspec := writeLoop_spec hloop
      rw [truthful_transfer (.inl hid)]
      · simp only [hid, true_and, reduceCtorEq, false_and, or_false]
        refine not_congr (and_congr_right fun _ => ?_)
        cases failed with
        | true =>
          simp only [if_true] at hspec
          simp
          omega
        | false =>
          simp only [Bool.false_eq_true, if_false] at hspec
          simp
          omega
      · rintro rfl
        simp only [if_true] at hspec
        omega
    · have hle := readLoop_le (by simpa using hlen) hloop
      have hshort := readLoop_short hloop
      rw [truthful_transfer (.inr hid)]
      · simp only [hid, true_and, reduceCtorEq, false_and, false_or]
        refine not_congr (and_congr_right fun _ => ?_)
        rw [List.length_nil, Nat.cast_zero, Int.sub_zero] at hshort
        rw [← hshort]
        refine and_congr_right fun _ => ?_
        omega
      · intro hfailed
        have hlt := hle.2 hfailed
        omega
  | closed hworker hid =>
    simp [Report.Truthful, handleClose, hid, hworker]

theorem decides_connect (session : Session) (msg : Msg) (calls : SysCalls) :
    (session.connect msg calls).Decides ↔ ¬ session.OpensSilently calls := by
  change (session.afterOpen calls).state = .opened ∨ (session.afterOpen calls).err ≠ .success ↔ _
  rw [afterOpen_state, OpensSilently]
  cases hopens : session.opens calls with
  | true => simp
  | false => simp [afterOpen_err hopens]

end Session

namespace State

variable {s t : State} {e : Event}

def Truthful (s : State) : Prop := ∀ report ∈ s.reports, report.Truthful

/-- The callbacks are truthful, and so is the one for each OPEN that is to be decided. -/
structure Honest (s : State) : Prop where
  reports : s.Truthful
  decides : ∀ i, (s.sessions i).Decides

/-- A worker is deciding an OPEN, and its next callback will not be truthful, whatever happens
before. -/
def Doomed (s : State) (i : Fin SESSION_MAX_COUNT) : Prop :=
  (∃ msg, (s.sessions i).worker = .deciding msg) ∧
    ∀ es calls t, system.Run s (es ++ [.handle i calls]) t → ¬ t.Truthful

/-- No operation fails silently, and no client sets the state of a session without an error between
the end of a `socket_open` that succeeded and the decision of its worker. -/
def CallbackGuard (s : State) : Event → Prop
  | .mark send => (s.sessions send.session).Settable
  | .connect i calls => ¬ (s.sessions i).OpensSilently calls
  | .handle i calls => ¬ (s.sessions i).FailsSilently calls
  | _ => True

instance (s : State) (e : Event) : Decidable (s.CallbackGuard e) := by
  cases e <;> unfold CallbackGuard <;> infer_instance

theorem requested_of_reachable (hs : system.Reachable s) :
    ∀ send ∈ s.sending, ∀ state ∈ send.mark, state.requested := by
  refine Lib.System.Reachable.invariant
    (P := fun s => ∀ send ∈ s.sending, ∀ state ∈ send.mark, state.requested) ?_ ?_ hs
  · rintro s ⟨threadIds, rfl⟩ send hsend
    cases hsend
  · intro s e t h hstep
    cases step_of_react hstep.2.2 with
    | chosen =>
      exact List.forall_mem_append.mpr ⟨h, List.forall_mem_singleton.mpr fun _ h => by cases h⟩
    | requested _ _ _ _ _ state _ _ _ _ hrequested =>
      refine List.forall_mem_append.mpr ⟨h, List.forall_mem_singleton.mpr fun other hother => ?_⟩
      rwa [← Option.some.inj hother]
    | marked send =>
      exact List.forall_mem_cons.mpr ⟨fun _ h => (by cases h), fun other hother =>
        h other (List.mem_of_mem_erase hother)⟩
    | queued send => exact fun other hother => h other (List.mem_of_mem_erase hother)
    | refused | started | woke | poppedNothing | popped | connected | handled => exact h

theorem honest_update {i : Fin SESSION_MAX_COUNT} {session : Session} (h : s.Honest)
    (hreports : t.reports = s.reports) (hsessions : t.sessions = (s.update i session).sessions) :
    t.Honest ↔ session.Decides := by
  constructor
  · intro ht
    have hi := ht.decides i
    rwa [hsessions, sessions_update_same] at hi
  · intro hsession
    refine ⟨fun report hreport => h.reports report (hreports ▸ hreport), ?_⟩
    rw [hsessions]
    exact forall_sessions_update (P := fun _ session => session.Decides) h.decides hsession

theorem decides_of_worker {session : Session} (h : ∀ msg, session.worker ≠ .deciding msg) :
    session.Decides := by
  unfold Session.Decides
  split
  case h_1 msg hworker => exact absurd hworker (h msg)
  case h_2 => trivial

theorem not_decides_iff {session : Session} : ¬ session.Decides ↔
    (∃ msg, session.worker = .deciding msg) ∧ session.state ≠ .opened ∧ session.err = .success := by
  unfold Session.Decides
  split
  case h_1 msg hworker => simp [hworker]
  case h_2 hworker => exact iff_of_false (not_not.mpr trivial) fun hand => hand.1.elim hworker

theorem honest_marked (h : s.Honest) {send : Send} {state : SessionState}
    (hrequested : state.requested) (sending : List Send) :
    State.Honest { s.update send.session { s.sessions send.session with state } with sending } ↔
      s.CallbackGuard (.mark send) := by
  refine Iff.trans (honest_update (i := send.session) h rfl rfl) ?_
  unfold Session.Decides CallbackGuard Session.Settable
  dsimp only
  split
  · refine or_iff_right fun hopened => ?_
    rw [hopened] at hrequested
    cases hrequested
  · exact Iff.rfl

theorem honest_step (hs : system.Reachable s) (h : s.Honest) (hstep : s.Step e t) :
    t.Honest ↔ s.CallbackGuard e := by
  cases hstep with
  | refused e hcall =>
    refine iff_of_true h ?_
    cases e with
    | sessionOpen | sessionWrite | sessionRead | sessionClose => trivial
    | mark | put | start | wake | pop | connect | handle => cases hcall
  | chosen => exact iff_of_true ⟨h.reports, h.decides⟩ trivial
  | requested e i msgId len data state hcall =>
    refine iff_of_true ⟨h.reports, h.decides⟩ ?_
    cases e with
    | sessionOpen | sessionWrite | sessionRead | sessionClose => trivial
    | mark | put | start | wake | pop | connect | handle => cases hcall
  | marked send state hmem hmark =>
    exact honest_marked h (requested_of_reachable hs send hmem state hmark) _
  | queued send hmem hmark hmutex =>
    refine Iff.trans (honest_update (i := send.session) h rfl rfl) (iff_of_true ?_ trivial)
    refine decides_of_worker fun msg hworker => ?_
    change (s.sessions send.session).worker.signal = .deciding msg at hworker
    cases hsignal : (s.sessions send.session).worker with
    | starting | waiting | woken | handling =>
      rw [hsignal] at hworker
      cases hworker
    | deciding =>
      rw [hsignal] at hmutex
      cases hmutex
  | started i =>
    exact Iff.trans (honest_update (i := i) h rfl rfl) (iff_of_true trivial trivial)
  | woke i => exact Iff.trans (honest_update (i := i) h rfl rfl) (iff_of_true trivial trivial)
  | poppedNothing => exact iff_of_true ⟨h.reports, h.decides⟩ trivial
  | popped i signalled msg msgQ =>
    refine Iff.trans (honest_update (i := i) h rfl rfl)
      (iff_of_true (decides_of_worker fun other hworker => ?_) trivial)
    rw [Session.take_worker] at hworker
    cases hworker
  | connected i calls msg =>
    exact Iff.trans (honest_update (i := i) h rfl rfl) (Session.decides_connect _ msg calls)
  | handled i calls msg handled hh =>
    have hguard : s.CallbackGuard (.handle i calls) ↔ handled.report.Truthful := by
      rw [hh.truthful, and_iff_right (h.decides i)]
      rfl
    rw [hguard]
    constructor
    · exact fun ht => ht.reports _ (List.mem_append_right _ List.mem_cons_self)
    · refine fun hreport => ⟨List.forall_mem_append.mpr ⟨h.reports,
        List.forall_mem_singleton.mpr hreport⟩, ?_⟩
      exact forall_sessions_update (P := fun _ session => session.Decides) h.decides
        (decides_of_worker fun _ hworker => by cases hworker)

theorem not_decides_step {i : Fin SESSION_MAX_COUNT} (hs : system.Reachable s)
    (h : ¬ (s.sessions i).Decides) (hstep : s.Step e t) :
    ¬ t.Truthful ∨ ¬ (t.sessions i).Decides ∧ ∀ calls, e ≠ .handle i calls := by
  obtain ⟨⟨msg, hworker⟩, -, herr⟩ := not_decides_iff.mp h
  have hmutex : (s.sessions i).worker.hasMutex = true := by rw [hworker]; rfl
  have hframe {j : Fin SESSION_MAX_COUNT} (hj : i ≠ j) (session : Session) :
      ¬ ((s.update j session).sessions i).Decides := by rwa [sessions_update_ne s session hj]
  cases hstep with
  | refused e hcall =>
    refine .inr ⟨h, ?_⟩
    rintro calls rfl
    cases hcall
  | chosen => exact .inr ⟨h, fun _ he => by cases he⟩
  | requested e _ _ _ _ _ hcall =>
    refine .inr ⟨h, ?_⟩
    rintro calls rfl
    cases hcall
  | marked send state hmem hmark =>
    refine .inr ⟨?_, fun _ he => by cases he⟩
    by_cases hi : i = send.session
    · subst hi
      have hrequested := requested_of_reachable hs send hmem state hmark
      change ¬ Session.Decides ((s.update send.session _).sessions send.session)
      rw [sessions_update_same]
      refine not_decides_iff.mpr ⟨⟨msg, hworker⟩, ?_, herr⟩
      rintro rfl
      cases hrequested
    · exact hframe hi _
  | queued send _ _ hfree =>
    refine .inr ⟨hframe ?_ _, fun _ he => by cases he⟩
    rintro rfl
    cases hmutex.symm.trans hfree
  | started j hj =>
    refine .inr ⟨hframe ?_ _, fun _ he => by cases he⟩
    rintro rfl
    cases hworker.symm.trans hj
  | woke j hj =>
    refine .inr ⟨hframe ?_ _, fun _ he => by cases he⟩
    rintro rfl
    cases hworker.symm.trans hj
  | poppedNothing => exact .inr ⟨h, fun _ he => by cases he⟩
  | popped j _ _ _ hj =>
    refine .inr ⟨hframe ?_ _, fun _ he => by cases he⟩
    rintro rfl
    cases hworker.symm.trans hj
  | connected j _ _ hj =>
    refine .inr ⟨hframe ?_ _, fun _ he => by cases he⟩
    rintro rfl
    cases hworker.symm.trans hj
  | handled j calls msg' handled hh =>
    by_cases hi : i = j
    · subst hi
      refine .inl fun ht => h ?_
      exact (hh.truthful.mp (ht _ (List.mem_append_right _ List.mem_cons_self))).1
    · refine .inr ⟨hframe hi _, ?_⟩
      rintro calls' he
      injection he with hj
      exact hi hj.symm

theorem not_truthful_step (h : ¬ s.Truthful) (hstep : s.Step e t) : ¬ t.Truthful := by
  have hreports : ∃ reports, t.reports = s.reports ++ reports := by
    cases hstep with
    | handled _ _ _ handled => exact ⟨[handled.report], rfl⟩
    | refused | chosen | requested | marked | queued | started | woke | poppedNothing | popped
    | connected => exact ⟨[], (List.append_nil _).symm⟩
  obtain ⟨reports, hreports⟩ := hreports
  refine fun ht => h fun report hreport => ht report ?_
  rw [hreports]
  exact List.mem_append_left _ hreport

theorem not_truthful_of_run (hs : system.Reachable s) {i : Fin SESSION_MAX_COUNT}
    {es : List Event} {calls : SysCalls}
    (h : ¬ s.Truthful ∨ ¬ (s.sessions i).Decides)
    (hrun : system.Run s (es ++ [.handle i calls]) t) : ¬ t.Truthful := by
  induction es generalizing s with
  | nil =>
    obtain _ | ⟨hstep, hnil⟩ := hrun
    cases hnil
    have hstep' := step_of_react hstep.2.2
    obtain h | h := h
    · exact not_truthful_step h hstep'
    · exact (not_decides_step hs h hstep').resolve_right fun hne => hne.2 calls rfl
  | cons e es ih =>
    obtain _ | ⟨hstep, hrest⟩ := hrun
    have hstep' := step_of_react hstep.2.2
    refine ih (.step hs hstep) ?_ hrest
    obtain h | h := h
    · exact .inl (not_truthful_step h hstep')
    · exact (not_decides_step hs h hstep').imp id And.left

theorem doomed_of_not_decides (hs : system.Reachable s) {i : Fin SESSION_MAX_COUNT}
    (h : ¬ (s.sessions i).Decides) : s.Doomed i :=
  ⟨(not_decides_iff.mp h).1, fun _ _ _ => not_truthful_of_run hs (.inr h)⟩

end State

end Mbtk.Stanet
