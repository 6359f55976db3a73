import Mbtk.Stanet.Steps

namespace Mbtk.Stanet

open Lib

namespace Session

variable {session : Session} {id : Fin SESSION_MAX_COUNT} {msg : Msg} {calls : SysCalls}

/-- The queue holds messages put behind those handled, and a signalled worker finds one. -/
structure Fifo (session : Session) : Prop where
  order : (session.handled ++ session.msgQ.map Msg.serial).Sublist session.puts
  woken : session.worker = .woken true → session.msgQ ≠ []

/-- The handling of the message ends with `session_reset`. -/
def Clears (session : Session) : Prop :=
  match session.worker with
  | .deciding _ => session.state ≠ .opened
  | .handling msg => msg.msgId = .socketClose
  | _ => False

instance : (session : Session) → Decidable session.Clears
  | { worker := .deciding _, .. } => inferInstanceAs (Decidable (_ ≠ _))
  | { worker := .handling _, .. } => inferInstanceAs (Decidable (_ = _))
  | { worker := .starting, .. } | { worker := .waiting, .. } | { worker := .woken _, .. } =>
    inferInstanceAs (Decidable False)

/-- What was put in a wait is still queued, but for the message that is being handled. -/
def Counted (session : Session) : Prop :=
  session.putsInWait = session.msgQ.length + if session.worker.hasMutex then 1 else 0

variable {h : Handled}

theorem Handles.wasReset (hh : Handles session id msg calls h) :
    h.wasReset = true ↔ session.Clears := by
  unfold Clears
  cases hh with
  | opened hworker hid hstate => simp [hworker, hstate]
  | refused hworker hid hstate => simp [hworker, hstate]
  | transfer count failed data hworker hloop =>
    rcases hloop.msgId with hid | hid <;> simp [hworker, hid, handleTransfer]
  | closed hworker hid => simp [hworker, hid, handleClose]

theorem Fifo.put (hfifo : session.Fifo) (msg : Msg) : (session.put msg).Fifo where
  order := by
    change List.Sublist (session.handled ++ (session.msgQ ++ [msg]).map Msg.serial)
      (session.puts ++ [msg.serial])
    simpa [← List.append_assoc] using hfifo.order.append_right [msg.serial]
  woken _ := List.append_ne_nil_of_right_ne_nil _ (List.cons_ne_nil _ _)

theorem Fifo.take {msgQ : List Msg} (hfifo : session.Fifo) (hmsgQ : session.msgQ = msg :: msgQ) :
    (session.take msg msgQ).Fifo where
  order := by
    have horder := hfifo.order
    rw [hmsgQ] at horder
    simpa [take_handled, take_msgQ, take_puts] using horder
  woken hworker := by
    rw [take_worker] at hworker
    cases hworker

theorem Fifo.connect (hfifo : session.Fifo) (msg : Msg) (calls : SysCalls) :
    (session.connect msg calls).Fifo where
  order := by
    have hframe := afterOpen_frame session calls
    change List.Sublist ((session.afterOpen calls).handled ++
      (session.afterOpen calls).msgQ.map Msg.serial) (session.afterOpen calls).puts
    rw [hframe.handled, hframe.msgQ, hframe.puts]
    exact hfifo.order
  woken hworker := by cases hworker

theorem Fifo.handle (hfifo : session.Fifo) (hh : Handles session id msg calls h) :
    h.session.wait.Fifo where
  order := by
    change List.Sublist (h.session.handled ++ h.session.msgQ.map Msg.serial) h.session.puts
    rw [hh.puts, hh.handled, hh.msgQ]
    split_ifs
    · rw [List.map_nil, List.append_nil]
      exact (List.sublist_append_left _ _).trans hfifo.order
    · exact hfifo.order
  woken hworker := by cases hworker

theorem Counted.put (hcounted : session.Counted) (hmutex : session.worker.hasMutex = false)
    (msg : Msg) : (session.put msg).Counted := by
  have hsignal : session.worker.signal.hasMutex = false := by
    cases hworker : session.worker with
    | starting | waiting | woken => rfl
    | handling | deciding =>
      rw [hworker] at hmutex
      cases hmutex
  have hputs : session.putsInWait = session.msgQ.length := by
    rw [hcounted, hmutex]
    rfl
  unfold Counted
  change session.putsInWait + 1 = (session.msgQ ++ [msg]).length +
    if session.worker.signal.hasMutex then 1 else 0
  rw [hsignal, hputs, List.length_append]
  rfl

theorem Counted.take {msgQ : List Msg} (hcounted : session.Counted)
    (hmutex : session.worker.hasMutex = false) (hmsgQ : session.msgQ = msg :: msgQ) :
    (session.take msg msgQ).Counted := by
  unfold Counted at hcounted ⊢
  rw [take_putsInWait, take_msgQ, take_worker, hcounted, hmutex, hmsgQ]
  rfl

theorem Counted.connect (hcounted : session.Counted) (hworker : session.worker = .handling msg)
    (calls : SysCalls) : (session.connect msg calls).Counted := by
  have hframe := afterOpen_frame session calls
  unfold Counted at hcounted ⊢
  change (session.afterOpen calls).putsInWait = (session.afterOpen calls).msgQ.length + 1
  rw [hframe.putsInWait, hframe.msgQ, hcounted, hworker]
  rfl

theorem counted_wait (hmsgQ : session.msgQ = []) : session.wait.Counted := by
  change 0 = session.msgQ.length + 0
  rw [hmsgQ]
  rfl

end Session

namespace State

variable {s t : State} {e : Event}

theorem fifo_of_reachable (hs : system.Reachable s) (i : Fin SESSION_MAX_COUNT) :
    (s.sessions i).Fifo := by
  revert i
  refine Lib.System.Reachable.invariant (P := fun s => ∀ i, (s.sessions i).Fifo) ?_ ?_ hs
  · rintro s ⟨threadIds, rfl⟩ i
    exact ⟨List.Sublist.refl _, fun h => by cases h⟩
  · intro s e t hfifo hstep
    cases step_of_react hstep.2.2 with
    | refused => exact hfifo
    | chosen => exact hfifo
    | requested => exact hfifo
    | marked send =>
      have hsend := hfifo send.session
      exact forall_sessions_update hfifo ⟨hsend.order, hsend.woken⟩
    | queued send => exact forall_sessions_update hfifo ((hfifo _).put send.msg)
    | started i =>
      exact forall_sessions_update hfifo ⟨(hfifo i).order, fun h => by cases h⟩
    | woke i =>
      exact forall_sessions_update hfifo ⟨(hfifo i).order, fun h => by cases h⟩
    | poppedNothing => exact hfifo
    | popped i signalled msg msgQ hworker hmsgQ =>
      exact forall_sessions_update hfifo ((hfifo i).take hmsgQ)
    | connected i calls msg => exact forall_sessions_update hfifo ((hfifo i).connect msg calls)
    | handled i calls msg h hh => exact forall_sessions_update hfifo ((hfifo i).handle hh)

/-- The numbers of the messages that were put into a queue or are still to be put anywhere. -/
def serials (s : State) (i : Fin SESSION_MAX_COUNT) : List ℕ :=
  (s.sessions i).puts ++ s.sending.map (·.msg.serial)

/-- No message has a number that another one has or that is still to be given. -/
def Numbered (s : State) (i : Fin SESSION_MAX_COUNT) : Prop :=
  (s.serials i).Nodup ∧ ∀ n ∈ s.serials i, n < s.serial

theorem Numbered.of_subperm {i : Fin SESSION_MAX_COUNT} (h : s.Numbered i)
    (hserials : (t.serials i).Subperm (s.serials i)) (hserial : t.serial = s.serial) :
    t.Numbered i := by
  refine ⟨?_, fun n hn => hserial ▸ h.2 n (hserials.subset hn)⟩
  obtain ⟨l, hperm, hsub⟩ := hserials
  exact hperm.nodup_iff.mp (h.1.sublist hsub)

theorem Numbered.added {i : Fin SESSION_MAX_COUNT} {send : Send} (h : s.Numbered i)
    (hsend : send.msg.serial = s.serial) : (s.added send).Numbered i := by
  have hserials : (s.added send).serials i = s.serials i ++ [s.serial] := by
    simp [State.added, serials, hsend]
  unfold Numbered
  rw [hserials]
  refine ⟨List.nodup_append.mpr ⟨h.1, List.nodup_singleton _, ?_⟩, fun n hn => ?_⟩
  · rintro n hn m hm rfl
    rw [List.mem_singleton] at hm
    exact absurd (h.2 n hn) (by omega)
  · change n < s.serial + 1
    rcases List.mem_append.mp hn with hn | hn
    · exact Nat.lt_succ_of_lt (h.2 n hn)
    · rw [List.mem_singleton] at hn
      omega

theorem serials_update (s : State) (i j : Fin SESSION_MAX_COUNT) {x : Session}
    (h : x.puts = (s.sessions i).puts) : (s.update i x).serials j = s.serials j := by
  unfold serials
  by_cases hj : j = i
  · subst hj
    rw [sessions_update_same, update_sending, h]
  · rw [sessions_update_ne s x hj, update_sending]

theorem Numbered.update {i : Fin SESSION_MAX_COUNT} (h : s.Numbered i) (j : Fin SESSION_MAX_COUNT)
    {session : Session} (hputs : session.puts = (s.sessions j).puts) :
    (s.update j session).Numbered i :=
  h.of_subperm (by rw [serials_update s j i hputs]) rfl

theorem map_serial_erase {sending : List Send} {send : Send} (h : send ∈ sending) :
    (sending.map (·.msg.serial)).Perm
      (send.msg.serial :: (sending.erase send).map (·.msg.serial)) :=
  (List.perm_cons_erase h).map _

theorem numbered_of_reachable (hs : system.Reachable s) (i : Fin SESSION_MAX_COUNT) :
    s.Numbered i := by
  revert i
  refine Lib.System.Reachable.invariant (P := fun s => ∀ i, s.Numbered i) ?_ ?_ hs
  · rintro s ⟨threadIds, rfl⟩ i
    exact ⟨List.nodup_nil, fun n hn => by cases hn⟩
  · intro s e t hnum hstep i
    cases step_of_react hstep.2.2 with
    | refused => exact hnum i
    | chosen host port j len data => exact Numbered.added (s := { s with bound := _ }) (hnum i) rfl
    | requested j => exact (hnum i).added rfl
    | marked send state hmem hmark =>
      refine (hnum i).of_subperm ?_ rfl
      have hupdate := serials_update s send.session i
        (x := { s.sessions send.session with state }) rfl
      refine List.Perm.subperm ?_
      rw [← hupdate]
      exact ((map_serial_erase hmem).symm).append_left _
    | queued send hmem hmark hmutex =>
      refine (hnum i).of_subperm ?_ rfl
      have hperm := map_serial_erase hmem
      by_cases hi : i = send.session
      · subst hi
        refine List.Perm.subperm ?_
        change (((s.update send.session _).sessions send.session).puts ++
          (s.sending.erase send).map (·.msg.serial)).Perm _
        rw [sessions_update_same]
        change ((s.sessions send.session).puts ++ [send.msg.serial] ++ _).Perm _
        rw [List.append_assoc]
        exact hperm.symm.append_left _
      · refine List.Subperm.append ?_ (List.Sublist.subperm
          (List.Sublist.map _ List.erase_sublist))
        dsimp only
        rw [sessions_update_ne s _ hi]
    | started j => exact (hnum i).update j rfl
    | woke j => exact (hnum i).update j rfl
    | poppedNothing => exact hnum i
    | popped j signalled msg msgQ => exact (hnum i).update j (Session.take_puts _ msg msgQ)
    | connected j calls msg =>
      exact (hnum i).update j (Session.afterOpen_frame (s.sessions j) calls).puts
    | handled j calls msg h hh => exact (hnum i).update j hh.puts

/-- What the workers and the queues are meant to do: no message is taken from an empty queue,
no worker waits while its queue holds a message, and messages are handled in the order in which
they were put, each at most once. -/
structure Disciplined (s : State) : Prop where
  alive : s.crashed = false
  waiting : ∀ i, (s.sessions i).worker = .waiting → (s.sessions i).msgQ = []
  order : ∀ i, (s.sessions i).handled.Sublist (s.sessions i).puts
  once : ∀ i, (s.sessions i).handled.Nodup

/-- Nothing is put before a worker first waits, something is put before it has the mutex again,
and no more than one message in a wait, unless it takes an OPEN that fails. -/
def QueueGuard (s : State) : Event → Prop
  | .start i => (s.sessions i).putsInWait = 0
  | .pop i => (s.sessions i).putsInWait ≠ 0
  | .handle i _ => (s.sessions i).putsInWait = 1 ∨ (s.sessions i).Clears
  | _ => True

instance (s : State) : (e : Event) → Decidable (s.QueueGuard e)
  | .start _ => inferInstanceAs (Decidable (_ = 0))
  | .pop _ => inferInstanceAs (Decidable (_ ≠ 0))
  | .handle _ _ => inferInstanceAs (Decidable (_ = 1 ∨ Session.Clears _))
  | .sessionOpen _ _ | .sessionWrite _ _ _ | .sessionRead _ _ | .sessionClose _ | .mark _ | .put _
  | .wake _ | .connect _ _ => inferInstanceAs (Decidable True)

theorem disciplined_of_reachable (hs : system.Reachable s) :
    s.Disciplined ↔
      s.crashed = false ∧ ∀ i, (s.sessions i).worker = .waiting → (s.sessions i).msgQ = [] := by
  constructor
  · exact fun h => ⟨h.alive, h.waiting⟩
  · rintro ⟨halive, hwaiting⟩
    have horder : ∀ i, (s.sessions i).handled.Sublist (s.sessions i).puts := fun i =>
      (List.sublist_append_left _ _).trans (fifo_of_reachable hs i).order
    refine ⟨halive, hwaiting, horder, fun i => ?_⟩
    exact ((numbered_of_reachable hs i).1.sublist (List.sublist_append_left _ _)).sublist (horder i)

theorem QueueGuard.of_isCall (s : State) (h : e.isCall) : s.QueueGuard e := by
  cases e with
  | sessionOpen => trivial
  | sessionWrite => trivial
  | sessionRead => trivial
  | sessionClose => trivial
  | mark => cases h
  | put => cases h
  | start => cases h
  | wake => cases h
  | pop => cases h
  | connect => cases h
  | handle => cases h

theorem waiting_update {i : Fin SESSION_MAX_COUNT} {session : Session}
    (h : ∀ j, (s.sessions j).worker = .waiting → (s.sessions j).msgQ = []) :
    (∀ j, ((s.update i session).sessions j).worker = .waiting →
      ((s.update i session).sessions j).msgQ = []) ↔
      (session.worker = .waiting → session.msgQ = []) := by
  constructor
  · intro hall
    simpa using hall i
  · exact fun hi =>
      forall_sessions_update
        (P := fun _ session => session.worker = .waiting → session.msgQ = []) h hi

theorem signal_ne_waiting (worker : Worker) : worker.signal ≠ .waiting := by
  cases worker <;> simp [Worker.signal]

theorem disciplined_step (hs : system.Reachable s) (h : s.Disciplined)
    (hcounted : ∀ i, (s.sessions i).Counted) (hstep : system.step s e t) :
    t.Disciplined ↔ s.QueueGuard e := by
  rw [disciplined_of_reachable (.step hs hstep)]
  have hputs (i : Fin SESSION_MAX_COUNT) : (s.sessions i).putsInWait =
      (s.sessions i).msgQ.length + if (s.sessions i).worker.hasMutex then 1 else 0 := hcounted i
  cases step_of_react hstep.2.2 with
  | refused e hcall => exact iff_of_true ⟨h.alive, h.waiting⟩ (.of_isCall s hcall)
  | chosen => exact iff_of_true ⟨h.alive, h.waiting⟩ trivial
  | requested e i msgId len data state hcall =>
    exact iff_of_true ⟨h.alive, h.waiting⟩ (.of_isCall s hcall)
  | marked send => exact iff_of_true ⟨h.alive, (waiting_update h.waiting).mpr (h.waiting _)⟩ trivial
  | queued send =>
    exact iff_of_true ⟨h.alive, (waiting_update h.waiting).mpr fun hworker =>
      absurd hworker (signal_ne_waiting _)⟩ trivial
  | started i hworker =>
    have hzero : (s.sessions i).putsInWait = 0 ↔ (s.sessions i).msgQ = [] := by
      rw [hputs, hworker, ← List.length_eq_zero_iff]
      rfl
    exact Iff.trans ⟨fun ht => (waiting_update h.waiting).mp ht.2 rfl, fun hi =>
      ⟨h.alive, (waiting_update h.waiting).mpr fun _ => hi⟩⟩ hzero.symm
  | woke i =>
    exact iff_of_true ⟨h.alive, (waiting_update h.waiting).mpr fun hworker => by cases hworker⟩
      trivial
  | poppedNothing i signalled hworker hmsgQ =>
    refine iff_of_false (fun ht => by cases ht.1) fun hguard => hguard ?_
    rw [hputs, hworker, hmsgQ]
    rfl
  | popped i signalled msg msgQ hworker hmsgQ =>
    refine iff_of_true ⟨h.alive, (waiting_update h.waiting).mpr fun hwaiting => ?_⟩ ?_
    · rw [Session.take_worker] at hwaiting
      cases hwaiting
    · change (s.sessions i).putsInWait ≠ 0
      rw [hputs, hmsgQ, List.length_cons]
      omega
  | connected i =>
    exact iff_of_true ⟨h.alive, (waiting_update h.waiting).mpr fun hworker => by cases hworker⟩
      trivial
  | handled i calls msg handled hh =>
    have hone : (s.sessions i).putsInWait = 1 ↔ (s.sessions i).msgQ = [] := by
      rw [hputs, hh.hasMutex, ← List.length_eq_zero_iff, if_pos rfl]
      omega
    refine Iff.trans ⟨fun ht => (waiting_update h.waiting).mp ht.2 rfl, fun hi =>
      ⟨h.alive, (waiting_update h.waiting).mpr fun _ => hi⟩⟩ ?_
    change handled.session.msgQ = [] ↔ (s.sessions i).putsInWait = 1 ∨ (s.sessions i).Clears
    rw [hone, hh.msgQ, ← hh.wasReset]
    cases handled.wasReset <;> simp

theorem counted_step (hcounted : ∀ i, (s.sessions i).Counted) (ht : t.Disciplined)
    (hstep : s.Step e t) : ∀ i, (t.sessions i).Counted := by
  cases hstep with
  | refused => exact hcounted
  | chosen => exact hcounted
  | requested => exact hcounted
  | marked send => exact forall_sessions_update hcounted (hcounted send.session)
  | queued send hmem hmark hmutex =>
    exact forall_sessions_update hcounted ((hcounted _).put hmutex send.msg)
  | started i =>
    have hnil := ht.waiting i (by rw [sessions_update_same]; rfl)
    rw [sessions_update_same] at hnil
    exact forall_sessions_update hcounted (Session.counted_wait hnil)
  | woke i hworker =>
    refine forall_sessions_update hcounted ?_
    have hi := hcounted i
    unfold Session.Counted at hi ⊢
    rwa [hworker] at hi
  | poppedNothing => exact hcounted
  | popped i signalled msg msgQ hworker hmsgQ =>
    exact forall_sessions_update hcounted ((hcounted i).take (by rw [hworker]; rfl) hmsgQ)
  | connected i calls msg hworker =>
    exact forall_sessions_update hcounted ((hcounted i).connect hworker calls)
  | handled i calls msg handled hh =>
    have hsession := sessions_update_same s i handled.session.wait
    have hnil := ht.waiting i (by rw [show State.sessions _ i = _ from hsession]; rfl)
    rw [show State.sessions _ i = _ from hsession] at hnil
    exact forall_sessions_update hcounted (Session.counted_wait hnil)

/-- The queues are served as meant in every run whose steps meet the condition, and such a run
goes on so exactly with the steps that meet it. -/
theorem disciplined_iff (hs : (system.restrict QueueGuard).Reachable s) :
    s.Disciplined ∧ ∀ e t, system.step s e t → (t.Disciplined ↔ s.QueueGuard e) := by
  have h : s.Disciplined ∧ ∀ i, (s.sessions i).Counted := by
    refine Lib.System.Reachable.invariant_of (P := system.Reachable)
      (Q := fun s => s.Disciplined ∧ ∀ i, (s.sessions i).Counted)
      (fun _ => Lib.System.Reachable.of_restrict) ?_ ?_ hs
    · rintro s ⟨threadIds, rfl⟩
      exact ⟨⟨rfl, fun i h => (by cases h), fun i => List.Sublist.refl _, fun i => List.nodup_nil⟩,
        fun i => rfl⟩
    · intro s e t hs h hstep _
      have ht := (disciplined_step hs h.1 h.2 hstep.2).mpr hstep.1
      exact ⟨ht, counted_step h.2 ht (step_of_react hstep.2.2.2)⟩
  exact ⟨h.1, fun e t hstep => disciplined_step (.of_restrict hs) h.1 h.2 hstep⟩

/-- The call `stanet_session_write(0, "ab", 2)`. -/
def sampleWrite : Event := .sessionWrite 0 (some [0x61, 0x62]) 2

def writeSample (serial : ℕ) (mark : Option SessionState) : Send :=
  ⟨0, ⟨serial, .socketWrite, 2, [0x61, 0x62]⟩, mark⟩

theorem disciplined_sampleWrite : ∃ s, (system.restrict QueueGuard).Reachable s ∧
    (s.sessions 0).handled = [0, 1] ∧ (s.sessions 0).state = .writing ∧ s.Disciplined ∧
      ∀ e t, system.step s e t → (t.Disciplined ↔ s.QueueGuard e) := by
  let es : List Event := [.start 0, sampleOpen, .put (sampleSend 0 0), .pop 0,
    .connect 0 (sampleCalls 3), .handle 0 (sampleCalls 3), sampleWrite,
    .mark (writeSample 1 (some .writing)), .wake 0, .put (writeSample 1 none), .pop 0,
    .handle 0 { sampleCalls 3 with transfers := [.moved [0x61], .wouldBlock, .moved [0x62]] }]
  have hstart : (system.restrict QueueGuard).Reachable sampleInit := .init ⟨_, rfl⟩
  have hrun : (es.foldlM (fun (s : State) e => if s.QueueGuard e then s.next e else none)
      sampleInit).any (fun s => (s.sessions 0).handled = [0, 1] ∧
        (s.sessions 0).state = .writing) := by
    decide
  obtain ⟨s, hs, h⟩ := hstart.of_guarded_foldlM step_of_next hrun
  obtain ⟨hhandled, hstate⟩ := of_decide_eq_true h
  exact ⟨s, hs, hhandled, hstate, disciplined_iff hs⟩

/-- Two messages are put before the woken worker has the mutex: it handles the first one and
waits with the second one in its queue. -/
theorem not_disciplined_twoPuts : ∃ s, system.Reachable s ∧ ¬ s.Disciplined := by
  let es : List Event := [.start 0, sampleOpen, sampleOpen, .put (sampleSend 0 0),
    .put (sampleSend 0 1), .pop 0, .connect 0 (sampleCalls 3), .handle 0 (sampleCalls 3)]
  have hrun : (es.foldlM next sampleInit).any (fun s =>
      (s.sessions 0).worker = .waiting ∧ (s.sessions 0).msgQ ≠ []) := by
    decide
  obtain ⟨s, hs, h⟩ := reachable_sampleInit.of_foldlM step_of_next hrun
  obtain ⟨hworker, hmsgQ⟩ := of_decide_eq_true h
  exact ⟨s, hs, fun hdisciplined => hmsgQ (hdisciplined.waiting 0 hworker)⟩

end State

end Mbtk.Stanet
