import Mbtk.Stanet.Writes

namespace Mbtk.Stanet

open Lib

namespace State

variable {s t : State} {i : Fin SESSION_MAX_COUNT} {bufs : List (List UInt8)}
  {written : List UInt8} {buf : List UInt8} {es : List (Event × List UInt8)}

section Steps

theorem Carries.request_ne {sessionId : ℤ} {msgId : MsgId} {data : Option (List UInt8)} {len : ℤ}
    {mark : SessionState} (h : s.Carries i bufs written) (hi : sessionGet sessionId ≠ some i)
    (hrequest : s.request sessionId msgId data len mark = some t) : t.Carries i bufs written := by
  obtain rfl | ⟨j, bytes, hj, rfl⟩ := request_cases hrequest
  · exact h
  · exact h.added_ne fun hsession => hi (by rw [hj]; exact congrArg some hsession)

theorem Carries.write {sessionId : ℤ} {buf : Option (List UInt8)} {len : ℤ}
    (h : s.Carries i bufs written) (hguard : s.WriterGuard i (.sessionWrite sessionId buf len))
    (hwrite : s.stanetSessionWrite sessionId buf len = some t) :
    t.Carries i (bufs ++ (Event.buffer i (.sessionWrite sessionId buf len)).toList) written := by
  by_cases hi : sessionGet sessionId = some i
  · obtain ⟨hsends, bytes, rfl, rfl⟩ := hguard hi
    have hlen : bytes.length ≤ SESSION_MSG_MAX_LEN + 1 := by
      by_contra hlen
      rw [stanetSessionWrite_eq_none h.usable (not_le.mp hlen) hi] at hwrite
      cases hwrite
    rw [stanetSessionWrite_eq h.usable hlen hi] at hwrite
    obtain rfl := Option.some.inj hwrite
    rw [Event.buffer, if_pos hi, Int.toNat_natCast, List.take_length]
    exact h.called hsends bytes
  · have hbuffer : Event.buffer i (.sessionWrite sessionId buf len) = none := by
      cases buf with
      | none => rfl
      | some buf => exact if_neg hi
    rw [hbuffer, Option.toList_none, List.append_nil]
    exact h.request_ne hi hwrite

theorem Carries.open {host : Option (List UInt8)} {port : ℤ} (h : s.Carries i bufs written)
    (hopen : s.stanetSessionOpen host port = some t) : t.Carries i bufs written := by
  cases stanetSessionOpen_step hopen with
  | refused => exact h
  | chosen _ _ j len data hvalid hj =>
    have hne : j ≠ i := by
      rintro rfl
      have husable := h.usable
      rw [sessionGetUsable_unused hj] at husable
      cases husable
    have hbound : State.Carries { s with bound := (s.serial, j) :: s.bound } i bufs written :=
      h.frame rfl rfl
    exact hbound.added_ne hne
  | requested _ _ _ _ _ _ _ hne => exact absurd rfl (hne host port)

theorem Carries.step {e : Event} (h : s.Carries i bufs written) (hcall : e.isCall = false)
    (hguard : s.WriterGuard i e) (hstep : s.Step e t) :
    t.Carries i bufs (written ++ s.socketBytes i e) := by
  cases hstep with
  | refused _ he => cases hcall.symm.trans he
  | chosen => cases hcall
  | requested _ _ _ _ _ _ he => cases hcall.symm.trans he
  | marked send state hmem hmark =>
    rw [show s.socketBytes i _ = [] from rfl, List.append_nil]
    exact h.marked hmem hmark
  | queued send hmem hmark hmutex =>
    rw [show s.socketBytes i _ = [] from rfl, List.append_nil]
    exact h.queued hmem hmutex
  | started j hworker =>
    rw [show s.socketBytes i _ = [] from rfl, List.append_nil]
    by_cases hj : j = i
    · subst hj
      exact h.update rfl (by rw [hworker]; rfl)
    · exact h.update_ne hj _
  | woke j hworker =>
    rw [show s.socketBytes i _ = [] from rfl, List.append_nil]
    exact h.worker (by rw [hworker]; rfl)
  | poppedNothing =>
    rw [show s.socketBytes i _ = [] from rfl, List.append_nil]
    exact h.frame rfl rfl
  | popped j signalled msg msgQ hworker hmsgQ =>
    rw [show s.socketBytes i _ = [] from rfl, List.append_nil]
    exact h.popped hworker hmsgQ _
  | connected j calls msg hworker hmsgId =>
    rw [show s.socketBytes i _ = [] from rfl, List.append_nil]
    exact h.connected calls hworker hmsgId _
  | handled j calls msg handled hh => exact h.handled hguard hh _ _ _ _

theorem carries_step (h : s.Carries i bufs written) {e : Event × List UInt8}
    (hstep : (writes i).step s e t) :
    t.Carries i (bufs ++ (e.1.buffer i).toList) (written ++ e.2) := by
  obtain ⟨event, bytes⟩ := e
  obtain ⟨hguard, ⟨-, -, hreact⟩, hbytes⟩ := hstep
  change bytes = s.socketBytes i event at hbytes
  change s.react event = some t at hreact
  by_cases hcall : event.isCall
  · have hnone : bytes = [] := by
      rw [hbytes]
      cases event <;> first | rfl | cases hcall
    rw [hnone, List.append_nil]
    cases event with
    | sessionWrite => exact h.write hguard hreact
    | sessionOpen =>
      rw [show (Event.buffer i _).toList = [] from rfl, List.append_nil]
      exact h.open hreact
    | sessionRead =>
      rw [show (Event.buffer i _).toList = [] from rfl, List.append_nil]
      exact h.request_ne hguard hreact
    | sessionClose =>
      rw [show (Event.buffer i _).toList = [] from rfl, List.append_nil]
      exact h.request_ne hguard hreact
    | mark | put | start | wake | pop | connect | handle => cases hcall
  · have hnone : (event.buffer i).toList = [] := by
      cases event <;> first | rfl | exact absurd rfl hcall
    rw [hnone, List.append_nil, hbytes]
    exact h.step (by simpa using hcall) hguard (step_of_react hreact)

theorem buffers_cons (e : Event × List UInt8) (es : List (Event × List UInt8)) :
    buffers i (e :: es) = (e.1.buffer i).toList ++ buffers i es := by
  unfold buffers
  rw [List.filterMap_cons]
  cases e.1.buffer i <;> rfl

theorem buffers_append (es es' : List (Event × List UInt8)) :
    buffers i (es ++ es') = buffers i es ++ buffers i es' := List.filterMap_append

theorem carries_run (h : s.Carries i bufs written) (hrun : (writes i).Run s es t) :
    t.Carries i (bufs ++ buffers i es) (written ++ es.flatMap Prod.snd) := by
  induction hrun generalizing bufs written with
  | nil => simpa [buffers] using h
  | @cons s t u e es hstep _ ih =>
    have hnext := ih (carries_step h hstep)
    rw [List.append_assoc, List.append_assoc] at hnext
    rw [buffers_cons, List.flatMap_cons]
    exact hnext

theorem Ready.sends (h : s.Ready i) : s.sendsTo i = [] :=
  List.map_eq_nil_iff.mp (List.append_eq_nil_iff.mp h.messages).2

theorem Ready.msgQ (h : s.Ready i) : (s.sessions i).msgQ = [] :=
  (List.append_eq_nil_iff.mp (List.append_eq_nil_iff.mp h.messages).1).2

theorem Ready.carries (h : s.Ready i) : s.Carries i [] [] := by
  constructor
  case usable => exact h.usable
  case msgs => simp [h.messages]
  case bytes => simp [h.messages]
  case single => simp [h.sends]
  case marks => simp [h.sends]

theorem threadId_step {e : Event} (hstep : s.Step e t) (i : Fin SESSION_MAX_COUNT) :
    (t.sessions i).threadId = (s.sessions i).threadId := by
  have hupdate {j : Fin SESSION_MAX_COUNT} {session : Session}
      (hj : session.threadId = (s.sessions j).threadId) :
      ((s.update j session).sessions i).threadId = (s.sessions i).threadId := by
    by_cases hi : i = j
    · subst hi
      rwa [sessions_update_same]
    · rw [sessions_update_ne s session hi]
  cases hstep with
  | refused | chosen | requested | poppedNothing => rfl
  | marked | queued | started | woke => exact hupdate rfl
  | popped j _ msg msgQ => exact hupdate (Session.take_threadId _ msg msgQ)
  | connected j calls => exact hupdate (Session.afterOpen_frame _ calls).threadId
  | handled j _ _ _ hh => exact hupdate hh.threadId

theorem threadId_run (hrun : (writes i).Run s es t) :
    (t.sessions i).threadId = (s.sessions i).threadId := by
  induction hrun with
  | nil => rfl
  | cons hstep _ ih => exact ih.trans (threadId_step (step_of_react hstep.2.1.2.2) i)

end Steps

section Calls

/-- A buffer is the only one on its way to the session, and the worker does not wait. -/
structure Put (s : State) (i : Fin SESSION_MAX_COUNT) (buf : List UInt8) : Prop where
  alive : s.crashed = false
  sound : s.overrun = false
  usable : (s.sessions i).state.usable = true
  sends : s.sendsTo i = []
  mutex : (s.sessions i).worker.hasMutex = false
  awake : (s.sessions i).worker ≠ .waiting
  msgQ : ∃ serial, (s.sessions i).msgQ = [⟨serial, .socketWrite, buf.length, buf⟩]

theorem hasMutex_signal {worker : Worker} (h : worker.hasMutex = false) :
    worker.signal.hasMutex = false ∧ worker.signal ≠ .waiting := by
  cases worker with
  | handling | deciding => cases h
  | starting | waiting | woken => exact ⟨rfl, fun h => by cases h⟩

theorem Ready.exists_put (h : s.Ready i) (hlen : buf.length ≤ SESSION_MSG_MAX_LEN + 1) :
    ∃ es t, (writes i).Run s es t ∧ buffers i es = [buf] ∧ t.Put i buf := by
  let send := s.writeSend i buf
  let unput : Send := { send with mark := none }
  let called := s.added send
  let marked : State := { called.update i { called.sessions i with state := .writing } with
    sending := unput :: called.sending.erase send }
  let put : State := { marked.update i ((marked.sessions i).put unput.msg) with
    sending := marked.sending.erase unput }
  have hcalled : called.sendsTo i = [send] := by
    rw [sendsTo_added, h.sends]
    exact if_pos rfl
  have hwrite : s.stanetSessionWrite i.val (some buf) buf.length = some called :=
    stanetSessionWrite_eq h.usable hlen (sessionGet_val i)
  have hmark : called.mark send = some marked :=
    if_pos (List.mem_append_right _ (List.mem_singleton_self _))
  have hmarked : marked.sessions i = { s.sessions i with state := .writing } :=
    sessions_update_same called i _
  have hcurrent : (s.sessions i).worker.current = [] :=
    (List.append_eq_nil_iff.mp (List.append_eq_nil_iff.mp h.messages).1).1
  have hmutex : (s.sessions i).worker.hasMutex = false := by
    cases hworker : (s.sessions i).worker with
    | handling | deciding =>
      rw [hworker] at hcurrent
      cases hcurrent
    | starting | waiting | woken => rfl
  have hfree : (marked.sessions i).worker.hasMutex = false := by
    rw [hmarked]
    exact hmutex
  have hput : marked.msgQueuePut unput = some put := if_pos ⟨List.mem_cons_self, rfl, hfree⟩
  have hsession : put.sessions i = { s.sessions i with state := .writing }.put unput.msg := by
    rw [← hmarked]
    exact sessions_update_same marked i _
  refine ⟨[(.sessionWrite i.val (some buf) buf.length, []), (.mark send, []),
    (.put unput, [])], put,
    .cons ⟨fun _ => ⟨h.sends, buf, rfl, rfl⟩, ⟨h.alive, h.sound, hwrite⟩, rfl⟩ <|
      .cons ⟨trivial, ⟨h.alive, h.sound, hmark⟩, rfl⟩ <|
        .cons ⟨trivial, ⟨h.alive, h.sound, hput⟩, rfl⟩ <| .nil _, ?_, ?_⟩
  · simp [buffers, Event.buffer, sessionGet_val]
  · constructor
    case alive => exact h.alive
    case sound => exact h.sound
    case usable =>
      rw [hsession]
      rfl
    case sends =>
      change ((unput :: called.sending.erase send).erase unput).filter (·.session = i) = []
      rw [List.erase_cons_head, ← List.erase_filter]
      change (called.sendsTo i).erase send = []
      rw [hcalled, List.erase_cons_head]
    case mutex =>
      rw [hsession]
      exact (hasMutex_signal hmutex).1
    case awake =>
      rw [hsession]
      exact (hasMutex_signal hmutex).2
    case msgQ =>
      refine ⟨s.serial, ?_⟩
      rw [hsession]
      change (s.sessions i).msgQ ++ [unput.msg] = _
      rw [h.msgQ]
      rfl

theorem Put.exists_woken (h : s.Put i buf) :
    ∃ es t, (writes i).Run s es t ∧ buffers i es = [] ∧ t.Put i buf ∧
      ∃ signalled, (t.sessions i).worker = .woken signalled := by
  cases hworker : (s.sessions i).worker with
  | woken signalled => exact ⟨[], s, .nil s, rfl, h, signalled, hworker⟩
  | waiting => exact absurd hworker h.awake
  | handling | deciding =>
    have hmutex := h.mutex
    rw [hworker] at hmutex
    cases hmutex
  | starting =>
    let waits := s.update i (s.sessions i).wait
    let wakes := waits.update i { waits.sessions i with worker := .woken false }
    have hwaits : waits.sessions i = (s.sessions i).wait := sessions_update_same s i _
    have hwakes : wakes.sessions i = { (s.sessions i).wait with worker := .woken false } := by
      rw [← hwaits]
      exact sessions_update_same waits i _
    have hstart : s.startWait i = some waits := if_pos hworker
    have hwake : waits.spuriousWake i = some wakes := if_pos (by rw [hwaits]; rfl)
    refine ⟨[(.start i, []), (.wake i, [])], wakes,
      .cons ⟨trivial, ⟨h.alive, h.sound, hstart⟩, rfl⟩ <|
        .cons ⟨trivial, ⟨h.alive, h.sound, hwake⟩, rfl⟩ <| .nil _, rfl, ?_, false, by rw [hwakes]⟩
    constructor
    case alive => exact h.alive
    case sound => exact h.sound
    case usable =>
      rw [hwakes]
      exact h.usable
    case sends => exact h.sends
    case mutex =>
      rw [hwakes]
      rfl
    case awake =>
      rw [hwakes]
      exact fun h => by cases h
    case msgQ =>
      rw [hwakes]
      exact h.msgQ

def takesAll (buf : List UInt8) : SysCalls :=
  { sampleCalls 0 with transfers := if buf = [] then [] else [.moved buf] }

theorem writeLoop_takesAll (buf : List UInt8) :
    writeLoop buf.length 0 (takesAll buf).transfers = some (buf.length, false) := by
  unfold takesAll
  by_cases hnil : buf = []
  · subst hnil
    rfl
  · have hpos : 0 < buf.length := List.length_pos_of_ne_nil hnil
    rw [if_neg hnil, writeLoop, if_pos (by exact_mod_cast hpos), if_pos (by simp), Nat.zero_add,
      writeLoop, if_neg (lt_irrefl _)]

theorem Put.exists_handled {signalled : Bool} (h : s.Put i buf)
    (hworker : (s.sessions i).worker = .woken signalled)
    (hfits : ∀ serial, LogFits threadRun
      (Msg.line ⟨serial, .socketWrite, buf.length, buf⟩ (s.sessions i).threadId)) :
    ∃ es t, (writes i).Run s es t ∧ buffers i es = [] ∧ t.Ready i := by
  obtain ⟨serial, hmsgQ⟩ := h.msgQ
  let msg : Msg := ⟨serial, .socketWrite, buf.length, buf⟩
  let taken : State := { s.update i ((s.sessions i).take msg []) with
    overrun := ¬ LogFits threadRun (msg.line (s.sessions i).threadId) }
  have hpop : s.msgQueuePop i = some taken := by
    rw [msgQueuePop]
    dsimp only
    rw [hworker]
    dsimp only
    rw [hmsgQ]
  have htaken : taken.sessions i = (s.sessions i).take msg [] := sessions_update_same s i _
  have hsound : taken.overrun = false := by
    change decide (¬ LogFits threadRun (msg.line (s.sessions i).threadId)) = false
    simpa using hfits serial
  have hhandling : (taken.sessions i).worker = .handling msg := by
    rw [htaken, Session.take_worker]
  let out := (taken.sessions i).handleTransfer i msg buf.length false none
  have hhandle : (taken.sessions i).handle i (takesAll buf) = some out := by
    rw [Session.handle, hhandling]
    change ((writeLoop buf.length 0 (takesAll buf).transfers).bind _) = _
    rw [writeLoop_takesAll]
    rfl
  let done : State := { taken.update i out.session.wait with
    bound := if out.wasReset then taken.bound.filter (·.2 ≠ i) else taken.bound
    openFds := taken.openFds.filter (some · ≠ out.closed)
    reports := taken.reports ++ [out.report]
    overrun := ¬ out.report.callback.LogFits }
  have hdone : taken.handleMsg i (takesAll buf) = some done := by
    rw [handleMsg, hhandle]
    rfl
  have hsession : done.sessions i = (taken.sessions i).wait := sessions_update_same taken i _
  have hresults : ∀ r ∈ (takesAll buf).transfers, r ≠ .error := by
    unfold takesAll
    intro r hr
    dsimp only at hr
    split_ifs at hr
    · cases hr
    · rw [List.mem_singleton.mp hr]
      exact fun h => by cases h
  refine ⟨[(.pop i, []), (.handle i (takesAll buf), _)], done,
    .cons ⟨trivial, ⟨h.alive, h.sound, hpop⟩, rfl⟩ <|
      .cons ⟨fun _ => hresults, ⟨h.alive, hsound, hdone⟩, rfl⟩ <| .nil _, rfl, ?_⟩
  constructor
  case alive => exact h.alive
  case sound =>
    have hquiet : out.report.callback.LogFits := fun data hdata => by cases hdata
    exact decide_eq_false (not_not.mpr hquiet)
  case usable =>
    rw [hsession, htaken]
    change ((s.sessions i).take msg []).state.usable = true
    rw [Session.take_state _ [] rfl]
    exact h.usable
  case messages =>
    have hsends : done.sendsTo i = [] := h.sends
    rw [messages, hsends, hsession, htaken]
    change [] ++ ((s.sessions i).take msg []).msgQ ++ [] = []
    rw [Session.take_msgQ]
    rfl

/-- The buffer fits into the array of a message, and what stands in it before a zero byte, with the
number of the thread and what is printed around them, into `log_buf`. -/
structure Fits (threadId : ℤ) (buf : List UInt8) : Prop where
  data : buf.length ≤ SESSION_MSG_MAX_LEN + 1
  log : (Sock.cString buf).length + (Log.chars (toString threadId)).length ≤ 1986

instance (threadId : ℤ) (buf : List UInt8) : Decidable (Fits threadId buf) :=
  decidable_of_iff (_ ∧ _) ⟨fun h => ⟨h.1, h.2⟩, fun h => ⟨h.1, h.2⟩⟩

theorem logFits_iff (threadId : ℤ) (serial : ℕ) (buf : List UInt8) :
    LogFits threadRun (Msg.line ⟨serial, .socketWrite, buf.length, buf⟩ threadId) ↔
      (Sock.cString buf).length + (Log.chars (toString threadId)).length ≤ 1986 := by
  have hfront :
      (Log.Logger.front Log.LOG_I threadRun (none : Option Unit)).length = 42 := by decide
  have hthread : (Log.chars "Thread(").length = 7 := by decide
  have hrun : (Log.chars ") run:msg:").length = 10 := by decide
  have hnumber : (Log.chars (toString MsgId.socketWrite.number)).length = 1 := by decide
  have hcolon : (Log.chars ":").length = 1 := by decide
  unfold LogFits Msg.line Log.LOG_BUF_SIZE
  simp only [List.length_append, hfront, hthread, hrun, hnumber, hcolon]
  omega

theorem Ready.exists_written (h : s.Ready i)
    (hfits : ∀ buf ∈ bufs, Fits (s.sessions i).threadId buf) :
    ∃ es t, (writes i).Run s es t ∧ buffers i es = bufs ∧ t.Ready i := by
  induction bufs generalizing s with
  | nil => exact ⟨[], s, .nil s, rfl, h⟩
  | cons buf bufs ih =>
    obtain ⟨hbuf, hbufs⟩ := List.forall_mem_cons.mp hfits
    obtain ⟨es, t, hrun, hes, ht⟩ := h.exists_put hbuf.data
    obtain ⟨es', u, hrun', hes', hu, signalled, hworker⟩ := ht.exists_woken
    have hthread : (u.sessions i).threadId = (s.sessions i).threadId :=
      threadId_run (hrun.append hrun')
    obtain ⟨fs, v, hrun'', hfs, hv⟩ := hu.exists_handled hworker fun serial => by
      rw [logFits_iff, hthread]
      exact hbuf.log
    have hthread' : (v.sessions i).threadId = (s.sessions i).threadId :=
      (threadId_run hrun'').trans hthread
    obtain ⟨gs, w, hrest, hgs, hw⟩ := ih hv (by rwa [hthread'])
    refine ⟨_, w, ((hrun.append hrun').append hrun'').append hrest, ?_, hw⟩
    rw [buffers_append, buffers_append, buffers_append, hes, hes', hfs, hgs]
    rfl

end Calls

theorem intact_of_fits (h : s.Ready i) (hfits : ∀ buf ∈ bufs, Fits (s.sessions i).threadId buf) :
    s.Intact i bufs := by
  constructor
  case copied =>
    intro made buf rest hbufs es t hrun _ _
    have hbuf := (hfits buf (by simp [hbufs])).data
    rw [stanetSessionWrite_eq (carries_run h.carries hrun).usable hbuf (sessionGet_val i)]
    rfl
  case logged =>
    intro es t hrun hpre u hpop
    have hcarries := carries_run h.carries hrun
    rw [List.nil_append, List.nil_append] at hcarries
    obtain ⟨-, hsound, hreact⟩ := hpop
    cases step_of_react hreact with
    | refused _ hcall => cases hcall
    | requested _ _ _ _ _ _ hcall => cases hcall
    | poppedNothing => exact hsound
    | popped _ _ msg msgQ _ hmsgQ =>
      obtain ⟨hid, hlen, hdata⟩ := hcarries.msgs msg (by simp [messages, hmsgQ])
      obtain ⟨serial, msgId, dataLen, data⟩ := msg
      dsimp only at hid hlen hdata
      subst hid hlen
      refine decide_eq_false (not_not.mpr ?_)
      rw [logFits_iff, threadId_run hrun]
      exact (hfits data (hpre.subset hdata)).log
  case written =>
    intro es t hrun hbufs hmessages
    have hbytes := (carries_run h.carries hrun).bytes
    rw [hmessages, hbufs, List.flatMap_nil, List.append_nil, List.nil_append,
      List.nil_append] at hbytes
    exact hbytes.symm

theorem fits_of_intact (h : s.Ready i) (hintact : s.Intact i bufs) {made rest : List (List UInt8)}
    (hbufs : bufs = made ++ rest) (hmade : ∀ buf ∈ made, Fits (s.sessions i).threadId buf) :
    ∀ buf ∈ rest, Fits (s.sessions i).threadId buf := by
  induction rest generalizing made with
  | nil => simp
  | cons buf rest ih =>
    obtain ⟨es, t, hrun, hes, ht⟩ := h.exists_written hmade
    have hdata : buf.length ≤ SESSION_MSG_MAX_LEN + 1 := by
      by_contra hlong
      have hsome := hintact.copied made buf rest hbufs es t hrun hes ht.sends
      rw [stanetSessionWrite_eq_none ht.usable (not_le.mp hlong) (sessionGet_val i)] at hsome
      cases hsome
    obtain ⟨es', u, hrun', hes', hu⟩ := ht.exists_put hdata
    obtain ⟨fs, v, hrun'', hfs, hv, signalled, hworker⟩ := hu.exists_woken
    have hall := (hrun.append hrun').append hrun''
    have hbuffers : buffers i (es ++ es' ++ fs) = made ++ [buf] := by
      rw [buffers_append, buffers_append, hes, hes', hfs, List.append_nil]
    obtain ⟨serial, hmsgQ⟩ := hv.msgQ
    have hpop : v.msgQueuePop i = some
        { v.update i ((v.sessions i).take ⟨serial, .socketWrite, buf.length, buf⟩ []) with
          overrun := ¬ LogFits threadRun
            (Msg.line ⟨serial, .socketWrite, buf.length, buf⟩ (v.sessions i).threadId) } := by
      rw [msgQueuePop]
      dsimp only
      rw [hworker]
      dsimp only
      rw [hmsgQ]
    have hsound := hintact.logged _ v hall ⟨rest, by rw [hbuffers, hbufs, List.append_assoc]; rfl⟩
      _ ⟨hv.alive, hv.sound, hpop⟩
    have hlog := not_not.mp (of_decide_eq_false hsound)
    rw [logFits_iff, threadId_run hall] at hlog
    have hnext : bufs = made ++ [buf] ++ rest := by
      rw [hbufs, List.append_assoc, List.singleton_append]
    exact List.forall_mem_cons.mpr ⟨⟨hdata, hlog⟩, ih hnext
      (List.forall_mem_append.mpr ⟨hmade, List.forall_mem_singleton.mpr ⟨hdata, hlog⟩⟩)⟩

/-- From a state in which a session is open and nothing is on its way, the buffers of a client
reach the socket exactly if each of them fits into the array of a message and, as far as it is
printed, into the buffer of the log. -/
theorem intact_iff (h : s.Ready i) (bufs : List (List UInt8)) :
    s.Intact i bufs ↔ ∀ buf ∈ bufs, buf.length ≤ SESSION_MSG_MAX_LEN + 1 ∧
      (Sock.cString buf).length +
        (Log.chars (toString (s.sessions i).threadId)).length ≤ 1986 :=
  ⟨fun hintact buf hbuf =>
    have hfits := fits_of_intact h hintact (List.nil_append bufs).symm (by simp) buf hbuf
    ⟨hfits.data, hfits.log⟩,
  fun hfits => intact_of_fits h fun buf hbuf => ⟨(hfits buf hbuf).1, (hfits buf hbuf).2⟩⟩

theorem ready_sample : ∃ s, system.Reachable s ∧ s.Ready 0 ∧ (s.sessions 0).threadId = 1 := by
  let opens : List Event := [.start 0, sampleOpen, .put (sampleSend 0 0), .pop 0,
    .connect 0 (sampleCalls 3), .handle 0 (sampleCalls 3)]
  have hrun : (opens.foldlM next sampleInit).any (fun s => s.crashed = false ∧ s.overrun = false ∧
      (s.sessions 0).state.usable = true ∧ s.messages 0 = [] ∧ (s.sessions 0).threadId = 1) := by
    decide
  obtain ⟨s, hs, h⟩ := reachable_sampleInit.of_foldlM step_of_next hrun
  obtain ⟨halive, hsound, husable, hmessages, hthread⟩ := of_decide_eq_true h
  exact ⟨s, hs, ⟨halive, hsound, husable, hmessages⟩, hthread⟩

theorem cString_replicate (n : ℕ) {c : UInt8} (hc : c ≠ 0) :
    Sock.cString (List.replicate n c) = List.replicate n c := by
  rw [Sock.cString, List.takeWhile_replicate, if_pos (by simpa using hc)]

theorem intact_sample : ∃ s, system.Reachable s ∧
    s.Intact 0 [[0x61, 0x62], [], List.replicate 1985 0x63, 0 :: List.replicate 2048 0x64] := by
  obtain ⟨s, hs, h, hthread⟩ := ready_sample
  refine ⟨s, hs, (intact_iff h _).mpr ?_⟩
  have hdigits : (Log.chars (toString (1 : ℤ))).length = 1 := by decide
  have hlong : Sock.cString (List.replicate 1985 0x63) = List.replicate 1985 0x63 :=
    cString_replicate 1985 (by decide)
  have hzero : (0 :: List.replicate 2048 (0x64 : UInt8)).length = 2049 := by
    rw [List.length_cons, List.length_replicate]
  have hempty : Sock.cString (0 :: List.replicate 2048 0x64) = [] :=
    List.takeWhile_cons_of_neg (by decide)
  rw [hthread, List.forall_mem_cons, List.forall_mem_cons, List.forall_mem_cons,
    List.forall_mem_singleton, hdigits, hlong, hzero, hempty, List.length_replicate]
  decide

/-- One byte more than the array has. -/
theorem not_intact_long : ∃ s, system.Reachable s ∧ s.Ready 0 ∧
    ¬ s.Intact 0 [List.replicate 2050 0x61] := by
  obtain ⟨s, hs, h, -⟩ := ready_sample
  refine ⟨s, hs, h, fun hintact => ?_⟩
  have hlen := (fits_of_intact h hintact (List.nil_append _).symm (by simp) _
    (List.mem_singleton_self _)).data
  rw [List.length_replicate] at hlen
  exact absurd hlen (by decide)

end State

end Mbtk.Stanet
