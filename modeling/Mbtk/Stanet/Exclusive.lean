import Mbtk.Stanet.Close

namespace Mbtk.Stanet

open Lib

def Msg.isOpen (msg : Msg) : Bool := msg.msgId = .socketOpen

def Worker.holdsOpen : Worker → ℕ
  | .handling msg | .deciding msg => if msg.isOpen then 1 else 0
  | _ => 0

namespace Session

variable {session session' : Session} {id : Fin SESSION_MAX_COUNT} {msg : Msg} {calls : SysCalls}
  {opens holders : ℕ}

def holdsOpen (session : Session) : ℕ :=
  session.msgQ.countP Msg.isOpen + session.worker.holdsOpen

/-- Where a session stands, with the number of OPEN messages made for it that are not dealt with
and the number of calls that chose it since its last reset.  A caller that has still to set the
state of a session may do so when that is reset. -/
inductive Phase (session : Session) (opens holders : ℕ) : Prop
  | idle : session.sockfd = none → opens = 0 → holders = 0 → Phase session opens holders
  | opening : ((∀ msg, session.worker ≠ .deciding msg) → session.sockfd = none) → opens = 1 →
      holders = 1 → Phase session opens holders
  | live : session.state ≠ .unused → opens = 0 → holders = 1 → Phase session opens holders

theorem Phase.congr (h : session.Phase opens holders)
    (hworker : ∀ msg, session.worker ≠ .deciding msg)
    (hstate : session.state ≠ .unused → session'.state ≠ .unused)
    (hsockfd : session'.sockfd = session.sockfd) : session'.Phase opens holders := by
  cases h with
  | idle h1 h2 h3 => exact .idle (hsockfd.trans h1) h2 h3
  | opening h1 h2 h3 => exact .opening (fun _ => hsockfd.trans (h1 hworker)) h2 h3
  | live h1 h2 h3 => exact .live (hstate h1) h2 h3

theorem Phase.mark {state : SessionState} (h : session.Phase opens holders)
    (hstate : state ≠ .unused) : Phase { session with state } opens holders := by
  cases h with
  | idle h1 h2 h3 => exact .idle h1 h2 h3
  | opening h1 h2 h3 => exact .opening h1 h2 h3
  | live h1 h2 h3 => exact .live hstate h2 h3

theorem Phase.holders_le (h : session.Phase opens holders) : holders ≤ 1 := by
  cases h <;> omega

theorem Phase.of_pos (h : session.Phase opens holders) (hpos : 0 < opens) :
    ((∀ msg, session.worker ≠ .deciding msg) → session.sockfd = none) ∧ opens = 1 ∧
      holders = 1 := by
  cases h with
  | idle => omega
  | opening h1 h2 h3 => exact ⟨h1, h2, h3⟩
  | live => omega

theorem Phase.of_unused (h : session.Phase opens holders) (hstate : session.state = .unused)
    (hopens : opens = 0) : session.sockfd = none ∧ holders = 0 := by
  cases h with
  | idle h1 h2 h3 => exact ⟨h1, h3⟩
  | opening => omega
  | live h1 => exact absurd hstate h1

theorem holdsOpen_signal (worker : Worker) : worker.signal.holdsOpen = worker.holdsOpen := by
  cases worker <;> rfl

theorem holdsOpen_put (session : Session) (msg : Msg) :
    (session.put msg).holdsOpen = session.holdsOpen + if msg.isOpen then 1 else 0 := by
  unfold holdsOpen
  change (session.msgQ ++ [msg]).countP Msg.isOpen + session.worker.signal.holdsOpen = _
  rw [holdsOpen_signal, List.countP_append, List.countP_singleton, Nat.add_right_comm]

theorem holdsOpen_take {msgQ : List Msg} {signalled : Bool}
    (hworker : session.worker = .woken signalled) (hmsgQ : session.msgQ = msg :: msgQ) :
    (session.take msg msgQ).holdsOpen = session.holdsOpen := by
  unfold holdsOpen
  rw [take_msgQ, take_worker, hworker, hmsgQ, List.countP_cons]
  rfl

theorem holdsOpen_connect (hworker : session.worker = .handling msg) (calls : SysCalls) :
    (session.connect msg calls).holdsOpen = session.holdsOpen := by
  unfold holdsOpen
  change (session.afterOpen calls).msgQ.countP Msg.isOpen + (Worker.deciding msg).holdsOpen = _
  rw [(afterOpen_frame session calls).msgQ, hworker]
  rfl

theorem take_sockfd (session : Session) (msg : Msg) (msgQ : List Msg) :
    (session.take msg msgQ).sockfd = session.sockfd := by
  unfold take
  split_ifs <;> rfl

theorem take_state (session : Session) (msgQ : List Msg) (h : msg.isOpen = false) :
    (session.take msg msgQ).state = session.state := by
  unfold take
  rw [if_neg (by simpa [Msg.isOpen] using h)]

theorem take_ne_unused (msg : Msg) (msgQ : List Msg) (h : session.state ≠ .unused) :
    (session.take msg msgQ).state ≠ .unused := by
  unfold take
  split_ifs
  · unfold beginOpen
    dsimp only
    split_ifs
    · exact fun h => by cases h
    · exact h
  · exact h

theorem Phase.decide {handled : Handled} {sends : ℕ}
    (hh : Handles session id msg calls handled) (hworker : session.worker = .deciding msg)
    (h : session.Phase (sends + session.holdsOpen) 1) :
    handled.session.wait.Phase (sends + handled.session.wait.holdsOpen)
      (if handled.wasReset then 0 else 1) := by
  cases hh with
  | opened _ hid hstate =>
    have hholds : session.holdsOpen = session.msgQ.countP Msg.isOpen + 1 := by
      rw [holdsOpen, hworker, Worker.holdsOpen, if_pos (by simpa [Msg.isOpen] using hid)]
    obtain ⟨-, hone, -⟩ := h.of_pos (by omega)
    refine .live ?_ ?_ rfl
    · change session.state ≠ .unused
      rw [hstate]
      exact fun h => by cases h
    · change sends + (session.msgQ.countP Msg.isOpen + 0) = 0
      omega
  | refused _ hid =>
    have hholds : session.holdsOpen = session.msgQ.countP Msg.isOpen + 1 := by
      rw [holdsOpen, hworker, Worker.holdsOpen, if_pos (by simpa [Msg.isOpen] using hid)]
    obtain ⟨-, hone, -⟩ := h.of_pos (by omega)
    refine .idle rfl ?_ rfl
    change sends + 0 = 0
    omega
  | transfer _ _ _ hhandling => cases hworker.symm.trans hhandling
  | closed hhandling => cases hworker.symm.trans hhandling

theorem Handles.transfer_frame {handled : Handled} (hh : Handles session id msg calls handled)
    (hworker : session.worker = .handling msg) (hclose : msg.msgId ≠ .socketClose) :
    msg.isOpen = false ∧ handled.session.state = session.state ∧
      handled.session.sockfd = session.sockfd ∧ handled.wasReset = false := by
  cases hh with
  | opened hdeciding => cases hworker.symm.trans hdeciding
  | refused hdeciding => cases hworker.symm.trans hdeciding
  | transfer count failed data _ hloop =>
    refine ⟨?_, ?_⟩
    · rcases hloop.msgId with hid | hid <;> simp [Msg.isOpen, hid]
    · cases failed <;> exact ⟨rfl, rfl, rfl⟩
  | closed _ hid => exact absurd hid hclose

end Session

namespace State

variable {s t : State} {e : Event} {i : Fin SESSION_MAX_COUNT}

/-- The number of OPEN messages for session `i` that are made and not yet put. -/
def sendsOpen (sending : List Send) (i : Fin SESSION_MAX_COUNT) : ℕ :=
  sending.countP fun send => send.session = i ∧ send.msg.isOpen

/-- The number of OPEN messages for session `i` that are not dealt with. -/
def opens (s : State) (i : Fin SESSION_MAX_COUNT) : ℕ :=
  sendsOpen s.sending i + (s.sessions i).holdsOpen

def holders (s : State) (i : Fin SESSION_MAX_COUNT) : ℕ := s.bound.countP (·.2 = i)

/-- Two calls do not share a session without a reset between them, and a session with an open
socket opens no other. -/
structure Exclusive (s : State) : Prop where
  bound : (s.bound.map Prod.snd).Nodup
  sockfd : ∀ i msg, (s.sessions i).worker = .handling msg → msg.msgId = .socketOpen →
    (s.sessions i).port > 0 → (s.sessions i).sockfd = none

/-- The session that a call chooses has no OPEN message on its way, queued or being handled. -/
def OpenGuard (s : State) : Event → Prop
  | .sessionOpen host port => ValidOpen host port → ∀ i ∈ s.sessionGetUsable, s.opens i = 0
  | _ => True

instance (host : Option (List UInt8)) (port : ℤ) : Decidable (ValidOpen host port) :=
  decidable_of_iff (∃ name ∈ host, 0 < port ∧ 0 < name.length ∧
    name.length ≤ SESSION_HOST_MAX_LEN) Iff.rfl

instance (s : State) : (e : Event) → Decidable (s.OpenGuard e)
  | .sessionOpen host port =>
    inferInstanceAs (Decidable (ValidOpen host port → ∀ i ∈ s.sessionGetUsable, s.opens i = 0))
  | .sessionWrite _ _ _ | .sessionRead _ _ | .sessionClose _ | .mark _ | .put _ | .start _ | .wake _
  | .pop _ | .connect _ _ | .handle _ _ => inferInstanceAs (Decidable True)

theorem OpenGuard.of_ne (h : ∀ host port, e ≠ .sessionOpen host port) : s.OpenGuard e := by
  cases e with
  | sessionOpen host port => exact absurd rfl (h host port)
  | sessionWrite | sessionRead | sessionClose | mark | put | start | wake | pop | connect
  | handle =>
    trivial

/-- The phases of the sessions, and what the callers have still to set. -/
structure Phased (s : State) : Prop where
  phase : ∀ i, (s.sessions i).Phase (s.opens i) (s.holders i)
  marks : ∀ send ∈ s.sending, ∀ state ∈ send.mark, state ≠ .unused ∧ send.msg.isOpen = false

theorem Phased.exclusive (h : s.Phased) : s.Exclusive where
  bound := by
    refine List.nodup_iff_count_le_one.mpr fun i => ?_
    have hle := (h.phase i).holders_le
    rw [List.count, List.countP_map]
    exact hle
  sockfd i msg hworker hid hport := by
    have hpos : 0 < s.opens i := by
      have hmsg : msg.isOpen = true := by simpa [Msg.isOpen] using hid
      unfold opens Session.holdsOpen
      rw [hworker, Worker.holdsOpen, if_pos hmsg]
      omega
    exact ((h.phase i).of_pos hpos).1 fun other hother => by cases hworker.symm.trans hother

theorem sessionGetUsable_unused (h : s.sessionGetUsable = some i) :
    (s.sessions i).state = .unused := by
  simpa using List.find?_some h

theorem sendsOpen_append (sending : List Send) (send : Send) (i : Fin SESSION_MAX_COUNT) :
    sendsOpen (sending ++ [send]) i =
      sendsOpen sending i + if send.session = i ∧ send.msg.isOpen then 1 else 0 := by
  simp [sendsOpen, List.countP_append, List.countP_singleton]

theorem sendsOpen_erase {sending : List Send} {send : Send} (h : send ∈ sending)
    (i : Fin SESSION_MAX_COUNT) :
    sendsOpen (sending.erase send) i + (if send.session = i ∧ send.msg.isOpen then 1 else 0) =
      sendsOpen sending i := by
  unfold sendsOpen
  rw [(List.perm_cons_erase h).countP_eq, List.countP_cons]
  simp

theorem requested_ne_unused {state : SessionState} (h : state.requested) : state ≠ .unused := by
  rintro rfl
  cases h

theorem Phased.update {session : Session} (h : s.Phased)
    (hsessions : t.sessions = Function.update s.sessions i session)
    (hsends : ∀ j ≠ i, sendsOpen t.sending j = sendsOpen s.sending j)
    (hholders : ∀ j ≠ i, t.holders j = s.holders j)
    (hphase : session.Phase (sendsOpen t.sending i + session.holdsOpen) (t.holders i))
    (hsending : ∀ send ∈ t.sending, send.mark ≠ none → send ∈ s.sending) : t.Phased where
  phase j := by
    unfold opens
    rw [hsessions]
    by_cases hj : j = i
    · subst hj
      rw [Function.update_self]
      exact hphase
    · rw [Function.update_of_ne hj, hsends j hj, hholders j hj]
      exact h.phase j
  marks send hsend state hstate := by
    have hmark : send.mark ≠ none := by
      rw [Option.mem_def.mp hstate]
      exact Option.some_ne_none state
    exact h.marks send (hsending send hsend hmark) state hstate

theorem Phased.worker {x : Session} (h : s.Phased)
    (hworker : ∀ msg, (s.sessions i).worker ≠ .deciding msg)
    (hstate : (s.sessions i).state ≠ .unused → x.state ≠ .unused)
    (hsockfd : x.sockfd = (s.sessions i).sockfd)
    (hholds : x.holdsOpen = (s.sessions i).holdsOpen) : (s.update i x).Phased := by
  refine h.update rfl (fun _ _ => rfl) (fun _ _ => rfl) ?_ fun _ hsend _ => hsend
  rw [update_sending, hholds]
  exact (h.phase i).congr hworker hstate hsockfd

theorem phased_chosen (h : s.Phased) {len : ℤ} {data : List UInt8}
    (hi : s.sessionGetUsable = some i) (hopens : s.opens i = 0) :
    ({ s with bound := (s.serial, i) :: s.bound }.added
      ⟨i, ⟨s.serial, .socketOpen, len, data⟩, none⟩).Phased := by
  obtain ⟨hsockfd, hholders⟩ := (h.phase i).of_unused (sessionGetUsable_unused hi) hopens
  refine h.update (i := i) (Function.update_eq_self i s.sessions).symm (fun j hj => ?_)
    (fun j hj => ?_) (.opening (fun _ => hsockfd) ?_ ?_) fun send hsend hmark => ?_
  · rw [State.added, sendsOpen_append, if_neg fun h => hj h.1.symm, Nat.add_zero]
  · exact List.countP_cons_of_neg (by simpa using Ne.symm hj)
  · rw [State.added, sendsOpen_append, if_pos ⟨rfl, rfl⟩]
    unfold opens at hopens
    dsimp only
    omega
  · unfold holders at hholders ⊢
    rw [State.added, List.countP_cons_of_pos (by simp)]
    omega
  · rcases List.mem_append.mp hsend with hsend | hsend
    · exact hsend
    · rw [List.mem_singleton.mp hsend] at hmark
      exact absurd rfl hmark

theorem phased_requested (h : s.Phased) {msgId : MsgId} {len : ℤ} {data : List UInt8}
    {state : SessionState} (hmsgId : msgId = .socketWrite ∨ msgId = .socketRead)
    (hrequested : state.requested) :
    (s.added ⟨i, ⟨s.serial, msgId, len, data⟩, some state⟩).Phased where
  phase j := by
    have hopen : Msg.isOpen ⟨s.serial, msgId, len, data⟩ = false := by
      rcases hmsgId with rfl | rfl <;> rfl
    unfold opens
    rw [State.added, sendsOpen_append, if_neg (by simp [hopen]), Nat.add_zero]
    exact h.phase j
  marks send hsend state' hstate := by
    rcases List.mem_append.mp hsend with hsend | hsend
    · exact h.marks send hsend state' hstate
    · rw [List.mem_singleton.mp hsend] at hstate ⊢
      cases hstate
      refine ⟨requested_ne_unused hrequested, ?_⟩
      rcases hmsgId with rfl | rfl <;> rfl

theorem phased_marked (h : s.Phased) {send : Send} {state : SessionState}
    (hmem : send ∈ s.sending) (hmark : send.mark = some state) :
    State.Phased { s.update send.session { s.sessions send.session with state } with
      sending := { send with mark := none } :: s.sending.erase send } := by
  obtain ⟨hstate, hopen⟩ := h.marks send hmem state hmark
  have hsends (j : Fin SESSION_MAX_COUNT) :
      sendsOpen ({ send with mark := none } :: s.sending.erase send) j =
        sendsOpen s.sending j := by
    have herase := sendsOpen_erase hmem j
    rw [if_neg (by simp [hopen]), Nat.add_zero] at herase
    rw [← herase]
    exact List.countP_cons_of_neg (by simp [hopen])
  refine h.update rfl (fun j _ => hsends j) (fun _ _ => rfl) ?_ fun other hother hne => ?_
  · rw [hsends]
    exact (h.phase send.session).mark hstate
  · rcases List.mem_cons.mp hother with rfl | hother
    · exact absurd rfl hne
    · exact List.mem_of_mem_erase hother

theorem ne_deciding {worker : Worker} (h : worker.hasMutex = false) (msg : Msg) :
    worker ≠ .deciding msg := by
  rintro rfl
  cases h

theorem phased_queued (h : s.Phased) {send : Send} (hmem : send ∈ s.sending)
    (hmutex : (s.sessions send.session).worker.hasMutex = false) :
    State.Phased { s.update send.session ((s.sessions send.session).put send.msg) with
      sending := s.sending.erase send } := by
  refine h.update rfl (fun j hj => ?_) (fun _ _ => rfl) ?_
    fun _ hother _ => List.mem_of_mem_erase hother
  · have herase := sendsOpen_erase hmem j
    rw [if_neg fun h => hj h.1.symm, Nat.add_zero] at herase
    exact herase
  · have herase := sendsOpen_erase hmem send.session
    have hphase := h.phase send.session
    unfold opens at hphase
    simp only [true_and] at herase
    rw [Session.holdsOpen_put, ← Nat.add_assoc, Nat.add_right_comm, herase]
    exact hphase.congr (ne_deciding hmutex) id rfl

theorem phased_popped (h : s.Phased) {signalled : Bool} {msg : Msg} {msgQ : List Msg}
    (hworker : (s.sessions i).worker = .woken signalled)
    (hmsgQ : (s.sessions i).msgQ = msg :: msgQ) (overrun : Bool) :
    State.Phased { s.update i ((s.sessions i).take msg msgQ) with overrun } := by
  have hupdate := h.worker (ne_deciding (by rw [hworker]; rfl))
    (Session.take_ne_unused msg msgQ) (Session.take_sockfd _ msg msgQ)
    (Session.holdsOpen_take hworker hmsgQ)
  exact ⟨hupdate.phase, hupdate.marks⟩

theorem phased_connected (h : s.Phased) {msg : Msg} (calls : SysCalls)
    (hworker : (s.sessions i).worker = .handling msg) (hmsgId : msg.msgId = .socketOpen)
    (openFds : List ℕ) :
    State.Phased { s.update i ((s.sessions i).connect msg calls) with openFds } := by
  have hpos : 0 < s.opens i := by
    unfold opens Session.holdsOpen
    rw [hworker, Worker.holdsOpen, if_pos (by simpa [Msg.isOpen] using hmsgId)]
    omega
  obtain ⟨-, hone, hholders⟩ := (h.phase i).of_pos hpos
  refine h.update rfl (fun _ _ => rfl) (fun _ _ => rfl) (.opening (fun hne => ?_) ?_ hholders)
    fun _ hsend _ => hsend
  · exact absurd rfl (hne msg)
  · rw [Session.holdsOpen_connect hworker]
    exact hone

theorem phased_handled (h : s.Phased) {calls : SysCalls} {msg : Msg} {handled : Handled}
    (hclose : (s.sessions i).NoClose)
    (hh : Session.Handles (s.sessions i) i msg calls handled) (openFds : List ℕ)
    (reports : List Report) (overrun : Bool) :
    State.Phased { s.update i handled.session.wait with
      bound := if handled.wasReset then s.bound.filter (·.2 ≠ i) else s.bound
      openFds
      reports
      overrun } := by
  have hphase := h.phase i
  obtain ⟨hworker, hid⟩ | hworker := hh.worker
  · have hpos : 0 < s.opens i := by
      unfold opens Session.holdsOpen
      rw [hworker, Worker.holdsOpen, if_pos (by simpa [Msg.isOpen] using hid)]
      omega
    obtain ⟨-, hone, hholders⟩ := hphase.of_pos hpos
    rw [hholders] at hphase
    have hnext := Session.Phase.decide hh hworker hphase
    have hcount :
        (if handled.wasReset then s.bound.filter (·.2 ≠ i) else s.bound).countP (·.2 = i) =
          if handled.wasReset then 0 else 1 := by
      split_ifs
      · rw [List.countP_filter]
        exact List.countP_eq_zero.mpr fun x _ => by simp
      · exact hholders
    refine h.update rfl (fun _ _ => rfl) (fun j hj => ?_) ?_ fun _ hsend _ => hsend
    · unfold holders
      dsimp only
      split_ifs
      · rw [List.countP_filter]
        refine List.countP_congr fun x _ => ?_
        by_cases hx : x.2 = j
        · simp [hx, hj]
        · simp [hx]
      · rfl
    · rw [← hcount] at hnext
      exact hnext
  · obtain ⟨hopen, hstate, hsockfd, hreset⟩ := hh.transfer_frame hworker
      (hclose.worker msg hworker)
    have hholds : handled.session.wait.holdsOpen = (s.sessions i).holdsOpen := by
      unfold Session.holdsOpen
      change handled.session.msgQ.countP Msg.isOpen + 0 = _
      rw [hh.msgQ, hreset, hworker, Worker.holdsOpen, hopen]
      rfl
    have hupdate := h.worker (x := handled.session.wait)
      (fun other hother => by cases hworker.symm.trans hother)
      (fun hne => by change handled.session.state ≠ _; rwa [hstate]) hsockfd hholds
    rw [hreset]
    exact ⟨hupdate.phase, hupdate.marks⟩

theorem phased_step (h : s.Phased) (hclose : s.NoClose) (hguard : s.OpenGuard e)
    (hstep : s.Step e t) : t.Phased := by
  cases hstep with
  | refused => exact h
  | chosen host port i len data hvalid hi =>
    exact phased_chosen h hi (hguard hvalid i (Option.mem_def.mpr hi))
  | requested e i msgId len data state hcall he husable hmsgId hrequested =>
    exact phased_requested h hmsgId hrequested
  | marked send state hmem hmark => exact phased_marked h hmem hmark
  | queued send hmem hmark hmutex => exact phased_queued h hmem hmutex
  | started i hworker =>
    exact h.worker (ne_deciding (by rw [hworker]; rfl)) id rfl
      (by unfold Session.holdsOpen; rw [hworker]; rfl)
  | woke i hworker =>
    exact h.worker (ne_deciding (by rw [hworker]; rfl)) id rfl
      (by unfold Session.holdsOpen; rw [hworker]; rfl)
  | poppedNothing => exact ⟨h.phase, h.marks⟩
  | popped i signalled msg msgQ hworker hmsgQ => exact phased_popped h hworker hmsgQ _
  | connected i calls msg hworker hmsgId => exact phased_connected h calls hworker hmsgId _
  | handled i calls msg handled hh => exact phased_handled h (hclose.sessions i) hh _ _ _

theorem phased_of_reachable (hs : (system.restrict OpenGuard).Reachable s) : s.Phased := by
  refine Lib.System.Reachable.invariant_of (P := system.Reachable) (Q := Phased)
    (fun _ => Lib.System.Reachable.of_restrict) ?_ ?_ hs
  · rintro s ⟨threadIds, rfl⟩
    exact ⟨fun i => .idle rfl rfl rfl, fun _ h => by cases h⟩
  · exact fun s e t hs h hstep _ =>
      phased_step h (noClose_of_reachable hs) hstep.1 (step_of_react hstep.2.2.2)

theorem not_exclusive_chosen (h : s.Phased) (hi : 0 < s.opens i) (send : Send) :
    ¬ ({ s with bound := (s.serial, i) :: s.bound }.added send).Exclusive := by
  intro hexclusive
  have hle := List.nodup_iff_count_le_one.mp hexclusive.bound i
  have hholders := ((h.phase i).of_pos hi).2.2
  rw [State.added, List.map_cons, List.count_cons_self, List.count, List.countP_map] at hle
  have hcount : s.bound.countP ((· == i) ∘ Prod.snd) = s.holders i := rfl
  omega

theorem exclusive_step (h : s.Phased) (hclose : s.NoClose) (hstep : s.Step e t) :
    t.Exclusive ↔ s.OpenGuard e := by
  by_cases hguard : s.OpenGuard e
  · exact iff_of_true (phased_step h hclose hguard hstep).exclusive hguard
  · refine iff_of_false (fun ht => hguard ?_) hguard
    cases hstep with
    | refused e hcall hrefused =>
      cases e with
      | sessionOpen host port =>
        intro hvalid i hi
        rw [hrefused host port rfl hvalid] at hi
        cases hi
      | sessionWrite | sessionRead | sessionClose => trivial
      | mark | put | start | wake | pop | connect | handle => cases hcall
    | chosen host port i len data hvalid hi =>
      intro _ j hj
      cases hi.symm.trans (Option.mem_def.mp hj)
      by_contra hopens
      exact not_exclusive_chosen h (Nat.pos_of_ne_zero hopens) _ ht
    | requested e i msgId len data state hcall he => exact .of_ne he
    | marked | queued | started | woke | poppedNothing | popped | connected | handled => trivial

/-- Sessions are exclusive in every run whose steps meet the condition, and such a run goes on so
exactly with the steps that meet it. -/
theorem exclusive_iff (hs : (system.restrict OpenGuard).Reachable s) :
    s.Exclusive ∧ ∀ e t, system.step s e t → (t.Exclusive ↔ s.OpenGuard e) := by
  have h := phased_of_reachable hs
  exact ⟨h.exclusive, fun e t hstep =>
    exclusive_step h (noClose_of_reachable (.of_restrict hs)) (step_of_react hstep.2.2)⟩

/-- Three calls: the worker handles the message of the first one and the connection of the second
one fails, which frees its session for the third one. -/
theorem exclusive_sampleCalls : ∃ s, (system.restrict OpenGuard).Reachable s ∧
    s.bound = [(2, 1), (0, 0)] ∧ (s.sessions 0).sockfd = some 3 ∧ s.Exclusive ∧
      ∀ e t, system.step s e t → (t.Exclusive ↔ s.OpenGuard e) := by
  let es : List Event := [.start 0, .start 1, sampleOpen, .put (sampleSend 0 0), .pop 0,
    .connect 0 (sampleCalls 3), .handle 0 (sampleCalls 3), sampleOpen, .put (sampleSend 1 1),
    .pop 1, .connect 1 { sampleCalls 4 with connect := .failed }, .handle 1 (sampleCalls 4),
    sampleOpen]
  have hstart : (system.restrict OpenGuard).Reachable sampleInit := .init ⟨_, rfl⟩
  have hrun : (es.foldlM (fun (s : State) e => if s.OpenGuard e then s.next e else none)
      sampleInit).any (fun s => s.bound = [(2, 1), (0, 0)] ∧
        (s.sessions 0).sockfd = some 3) := by
    decide
  obtain ⟨s, hs, h⟩ := hstart.of_guarded_foldlM step_of_next hrun
  obtain ⟨hbound, hsockfd⟩ := of_decide_eq_true h
  exact ⟨s, hs, hbound, hsockfd, exclusive_iff hs⟩

/-- Two calls choose session 0 before its worker runs: it opens a socket for the first one, and
then a second socket in the same session. -/
theorem not_exclusive_twoCalls : ∃ s, system.Reachable s ∧ ¬ s.Exclusive := by
  let es : List Event := [.start 0, sampleOpen, sampleOpen, .put (sampleSend 0 0),
    .put (sampleSend 0 1), .pop 0, .connect 0 (sampleCalls 3), .handle 0 (sampleCalls 3), .wake 0,
    .pop 0]
  have hrun : (es.foldlM next sampleInit).any (fun s =>
      (s.sessions 0).worker = .handling (sampleSend 0 1).msg ∧ (s.sessions 0).port > 0 ∧
        (s.sessions 0).sockfd = some 3) := by
    decide
  obtain ⟨s, hs, h⟩ := reachable_sampleInit.of_foldlM step_of_next hrun
  obtain ⟨hworker, hport, hsockfd⟩ := of_decide_eq_true h
  refine ⟨s, hs, fun hexclusive => ?_⟩
  cases hsockfd.symm.trans (hexclusive.sockfd 0 _ hworker rfl hport)

end State

end Mbtk.Stanet
