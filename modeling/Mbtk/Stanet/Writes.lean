import Mbtk.Stanet.Exclusive

namespace Mbtk.Stanet

open Lib

section Loop

def writtenBytes (data : List UInt8) (dataLen : ℤ) : ℕ → List CallResult → List UInt8
  | _, [] => []
  | count, result :: results =>
    if count < dataLen then
      match result with
      | .wouldBlock => writtenBytes data dataLen count results
      | .error => []
      | .moved bytes =>
        (data.drop count).take bytes.length ++
          writtenBytes data dataLen (count + bytes.length) results
    else []

variable {data : List UInt8} {dataLen : ℤ} {results : List CallResult} {count n : ℕ}
  {failed : Bool}

theorem writtenBytes_eq (h : writeLoop dataLen count results = some (n, failed)) :
    count ≤ n ∧ writtenBytes data dataLen count results = (data.drop count).take (n - count) := by
  induction results generalizing count with
  | nil =>
    unfold writeLoop at h
    split_ifs at h
    cases h
    exact ⟨le_rfl, by rw [Nat.sub_self, List.take_zero]; rfl⟩
  | cons r results ih =>
    unfold writeLoop at h
    unfold writtenBytes
    split_ifs at h ⊢ with hlt
    · cases r with
      | wouldBlock => exact ih h
      | error =>
        cases h
        exact ⟨le_rfl, by rw [Nat.sub_self, List.take_zero]⟩
      | moved bytes =>
        dsimp only at h
        split_ifs at h
        obtain ⟨hle, hrest⟩ := ih h
        have hsub : n - count = bytes.length + (n - (count + bytes.length)) := by omega
        refine ⟨by omega, ?_⟩
        dsimp only
        rw [hrest, hsub, List.take_add, List.drop_drop]
    · cases h
      exact ⟨le_rfl, by rw [Nat.sub_self, List.take_zero]⟩

theorem not_failed_of_writeLoop (h : writeLoop dataLen count results = some (n, failed))
    (hresults : ∀ r ∈ results, r ≠ .error) : failed = false := by
  induction results generalizing count with
  | nil =>
    unfold writeLoop at h
    split_ifs at h
    cases h
    rfl
  | cons r results ih =>
    obtain ⟨hr, hrest⟩ := List.forall_mem_cons.mp hresults
    unfold writeLoop at h
    split_ifs at h
    · cases r with
      | wouldBlock => exact ih h hrest
      | error => exact absurd rfl hr
      | moved bytes =>
        dsimp only at h
        split_ifs at h
        exact ih h hrest
    · cases h
      rfl

theorem writtenBytes_all {msg : Msg} (hlen : msg.dataLen = msg.data.length)
    (h : writeLoop msg.dataLen 0 results = some (n, failed))
    (hresults : ∀ r ∈ results, r ≠ .error) :
    writtenBytes msg.data msg.dataLen 0 results = msg.data := by
  have hspec := writeLoop_spec h
  rw [not_failed_of_writeLoop h hresults, if_neg (by decide)] at hspec
  rw [(writtenBytes_eq h).2, List.drop_zero]
  exact List.take_of_length_le (by omega)

end Loop

theorem Session.Handles.exists_writeLoop {session : Session} {id : Fin SESSION_MAX_COUNT}
    {msg : Msg} {calls : SysCalls} {handled : Handled}
    (hh : Session.Handles session id msg calls handled) (hwrite : msg.msgId = .socketWrite) :
    session.worker = .handling msg ∧
      ∃ n failed, writeLoop msg.dataLen 0 calls.transfers = some (n, failed) := by
  cases hh with
  | opened _ hid => cases hwrite.symm.trans hid
  | refused _ hid => cases hwrite.symm.trans hid
  | transfer count failed data hworker hloop =>
    obtain ⟨-, hloop⟩ | ⟨hid, -⟩ := hloop
    · exact ⟨hworker, count, failed, hloop⟩
    · cases hwrite.symm.trans hid
  | closed _ hid => cases hwrite.symm.trans hid

def Worker.current : Worker → List Msg
  | .handling msg | .deciding msg => [msg]
  | _ => []

/-- The buffer that a call of `stanet_session_write` hands to a session. -/
def Event.buffer (i : Fin SESSION_MAX_COUNT) : Event → Option (List UInt8)
  | .sessionWrite sessionId (some buf) len =>
    if sessionGet sessionId = some i then some (buf.take len.toNat) else none
  | _ => none

namespace State

def sendsTo (s : State) (i : Fin SESSION_MAX_COUNT) : List Send :=
  s.sending.filter (·.session = i)

/-- The messages for a session that are not dealt with, from the oldest on. -/
def messages (s : State) (i : Fin SESSION_MAX_COUNT) : List Msg :=
  (s.sessions i).worker.current ++ (s.sessions i).msgQ ++ (s.sendsTo i).map Send.msg

def socketBytes (s : State) (i : Fin SESSION_MAX_COUNT) : Event → List UInt8
  | .handle j calls =>
    if j = i then
      (s.sessions i).worker.current.flatMap fun msg =>
        if msg.msgId = .socketWrite then writtenBytes msg.data msg.dataLen 0 calls.transfers
        else []
    else []
  | _ => []

/-- The session takes only writes, each with a buffer and its length and after the one before has
returned, and no call of `write` fails with another error than EWOULDBLOCK. -/
def WriterGuard (s : State) (i : Fin SESSION_MAX_COUNT) : Event → Prop
  | .sessionWrite sessionId buf len => sessionGet sessionId = some i →
      s.sendsTo i = [] ∧ ∃ bytes, buf = some bytes ∧ len = bytes.length
  | .sessionRead sessionId _ | .sessionClose sessionId => sessionGet sessionId ≠ some i
  | .handle j calls => j = i → ∀ r ∈ calls.transfers, r ≠ .error
  | _ => True

/-- The session is open, and nothing is on its way to it. -/
structure Ready (s : State) (i : Fin SESSION_MAX_COUNT) : Prop where
  alive : s.crashed = false
  sound : s.overrun = false
  usable : (s.sessions i).state.usable = true
  messages : s.messages i = []

/-- The runs of the daemon in which a client writes to a session, with the bytes that each step
writes to the socket. -/
def writes (i : Fin SESSION_MAX_COUNT) : System State (Event × List UInt8) where
  init s := s.Ready i
  step s e t := s.WriterGuard i e.1 ∧ system.step s e.1 t ∧ e.2 = s.socketBytes i e.1

def buffers (i : Fin SESSION_MAX_COUNT) (es : List (Event × List UInt8)) : List (List UInt8) :=
  es.filterMap fun e => e.1.buffer i

/-- The writes of these buffers, one after another: no copy leaves the array of its message, no
message that is taken is logged behind the end of `log_buf`, and with all messages handled the
socket has got the buffers in their order. -/
structure Intact (s : State) (i : Fin SESSION_MAX_COUNT) (bufs : List (List UInt8)) : Prop where
  copied : ∀ made buf rest, bufs = made ++ buf :: rest → ∀ es t, (writes i).Run s es t →
    buffers i es = made → t.sendsTo i = [] →
    (t.stanetSessionWrite i.val (some buf) buf.length).isSome
  logged : ∀ es t, (writes i).Run s es t → buffers i es <+: bufs →
    ∀ u, system.step t (.pop i) u → u.overrun = false
  written : ∀ es t, (writes i).Run s es t → buffers i es = bufs → t.messages i = [] →
    es.flatMap Prod.snd = bufs.flatten

/-- The bytes of the buffers are the written ones and those of the messages. -/
structure Carries (s : State) (i : Fin SESSION_MAX_COUNT) (bufs : List (List UInt8))
    (written : List UInt8) : Prop where
  usable : (s.sessions i).state.usable = true
  msgs : ∀ msg ∈ s.messages i, msg.msgId = .socketWrite ∧ msg.dataLen = msg.data.length ∧
    msg.data ∈ bufs
  bytes : bufs.flatten = written ++ (s.messages i).flatMap Msg.data
  single : (s.sendsTo i).length ≤ 1
  marks : ∀ send ∈ s.sendsTo i, ∀ state ∈ send.mark, state.usable = true

section Steps

variable {s t : State} {i j : Fin SESSION_MAX_COUNT} {bufs : List (List UInt8)}
  {written : List UInt8} {buf : List UInt8}

theorem sessionGet_val (i : Fin SESSION_MAX_COUNT) : sessionGet i.val = some i := by
  revert i
  decide

theorem msgData_buf (buf : List UInt8) (hlen : buf.length ≤ SESSION_MSG_MAX_LEN + 1) :
    msgData (some buf) buf.length = some buf := by
  rw [msgData]
  split_ifs with hpos hfit
  · rw [Int.toNat_natCast, List.take_length]
  · exact absurd ⟨le_rfl, by exact_mod_cast hlen⟩ hfit
  · have hnil : buf.length = 0 := by omega
    rw [List.length_eq_zero_iff.mp hnil]

theorem msgData_buf_eq_none (hlen : SESSION_MSG_MAX_LEN + 1 < buf.length) :
    msgData (some buf) buf.length = none := by
  rw [msgData, if_pos (by omega), if_neg (by omega)]

def writeSend (s : State) (i : Fin SESSION_MAX_COUNT) (buf : List UInt8) : Send :=
  ⟨i, ⟨s.serial, .socketWrite, buf.length, buf⟩, some .writing⟩

theorem stanetSessionWrite_eq (husable : (s.sessions i).state.usable = true)
    (hlen : buf.length ≤ SESSION_MSG_MAX_LEN + 1) {sessionId : ℤ}
    (hi : sessionGet sessionId = some i) :
    s.stanetSessionWrite sessionId (some buf) buf.length = some (s.added (s.writeSend i buf)) := by
  rw [stanetSessionWrite, request, hi]
  dsimp only
  rw [if_pos husable, sendMsg, msgData_buf buf hlen]
  rfl

theorem stanetSessionWrite_eq_none (husable : (s.sessions i).state.usable = true)
    (hlen : SESSION_MSG_MAX_LEN + 1 < buf.length) {sessionId : ℤ}
    (hi : sessionGet sessionId = some i) :
    s.stanetSessionWrite sessionId (some buf) buf.length = none := by
  rw [stanetSessionWrite, request, hi]
  dsimp only
  rw [if_pos husable, sendMsg, msgData_buf_eq_none hlen]
  rfl

theorem request_cases {sessionId : ℤ} {msgId : MsgId} {data : Option (List UInt8)} {len : ℤ}
    {mark : SessionState} (h : s.request sessionId msgId data len mark = some t) :
    t = s ∨ ∃ j bytes, sessionGet sessionId = some j ∧
      t = s.added ⟨j, ⟨s.serial, msgId, len, bytes⟩, some mark⟩ := by
  unfold request at h
  split at h
  · exact .inl (Option.some.inj h).symm
  case h_2 j hj =>
    split_ifs at h
    · obtain ⟨bytes, rfl⟩ := sendMsg_inv h
      exact .inr ⟨j, bytes, hj, rfl⟩
    · exact .inl (Option.some.inj h).symm

theorem sendsTo_added (s : State) (send : Send) (i : Fin SESSION_MAX_COUNT) :
    (s.added send).sendsTo i = s.sendsTo i ++ if send.session = i then [send] else [] := by
  rw [sendsTo, sendsTo, State.added, List.filter_append, List.filter_singleton]
  simp

theorem Carries.congr (h : s.Carries i bufs written) (hmessages : t.messages i = s.messages i)
    (husable : (t.sessions i).state.usable = true) (hsingle : (t.sendsTo i).length ≤ 1)
    (hmarks : ∀ send ∈ t.sendsTo i, ∀ state ∈ send.mark, state.usable = true) :
    t.Carries i bufs written where
  usable := husable
  msgs := hmessages ▸ h.msgs
  bytes := hmessages ▸ h.bytes
  single := hsingle
  marks := hmarks

theorem Carries.frame (h : s.Carries i bufs written) (hsession : t.sessions i = s.sessions i)
    (hsends : t.sendsTo i = s.sendsTo i) : t.Carries i bufs written := by
  refine h.congr ?_ ?_ ?_ ?_
  · rw [messages, messages, hsession, hsends]
  · rw [hsession]
    exact h.usable
  · rw [hsends]
    exact h.single
  · rw [hsends]
    exact h.marks

theorem Carries.update (h : s.Carries i bufs written) {session : Session}
    (hstate : session.state = (s.sessions i).state)
    (hmessages : session.worker.current ++ session.msgQ =
      (s.sessions i).worker.current ++ (s.sessions i).msgQ) :
    (s.update i session).Carries i bufs written := by
  refine h.congr ?_ ?_ h.single h.marks
  · rw [messages, messages, sessions_update_same, hmessages]
    rfl
  · rw [sessions_update_same, hstate]
    exact h.usable

theorem Carries.update_ne (h : s.Carries i bufs written) (hne : j ≠ i) (session : Session) :
    (s.update j session).Carries i bufs written :=
  h.frame (sessions_update_ne s session (Ne.symm hne)) rfl

theorem Carries.worker (h : s.Carries i bufs written) {worker : Worker}
    (hworker : worker.current = (s.sessions j).worker.current) :
    (s.update j { s.sessions j with worker }).Carries i bufs written := by
  by_cases hj : j = i
  · subst hj
    exact h.update rfl (congrArg (· ++ _) hworker)
  · exact h.update_ne hj _

theorem Carries.added_ne (h : s.Carries i bufs written) {send : Send} (hne : send.session ≠ i) :
    (s.added send).Carries i bufs written :=
  h.frame rfl (by rw [sendsTo_added, if_neg hne, List.append_nil])

theorem Carries.called (h : s.Carries i bufs written) (hsends : s.sendsTo i = [])
    (buf : List UInt8) : (s.added (s.writeSend i buf)).Carries i (bufs ++ [buf]) written := by
  have hadded : (s.added (s.writeSend i buf)).sendsTo i = [s.writeSend i buf] := by
    rw [sendsTo_added, hsends]
    exact if_pos rfl
  have hmessages : (s.added (s.writeSend i buf)).messages i =
      s.messages i ++ [(s.writeSend i buf).msg] := by
    rw [messages, messages, hadded, hsends, List.map_nil, List.append_nil]
    rfl
  constructor
  case usable => exact h.usable
  case msgs =>
    rw [hmessages, List.forall_mem_append]
    refine ⟨fun msg hmsg => ?_, List.forall_mem_singleton.mpr
      ⟨rfl, rfl, List.mem_append_right _ (List.mem_singleton_self _)⟩⟩
    obtain ⟨hid, hlen, hdata⟩ := h.msgs msg hmsg
    exact ⟨hid, hlen, List.mem_append_left _ hdata⟩
  case bytes =>
    rw [hmessages, List.flatMap_append, ← List.append_assoc, ← h.bytes, List.flatten_concat]
    simp [writeSend]
  case single => rw [hadded]; exact le_rfl
  case marks =>
    rw [hadded]
    refine List.forall_mem_singleton.mpr fun state hstate => ?_
    rw [← Option.some.inj hstate]
    rfl

theorem mem_sendsTo {send : Send} : send ∈ s.sendsTo i ↔ send ∈ s.sending ∧ send.session = i := by
  rw [sendsTo, List.mem_filter, decide_eq_true_iff]

theorem sendsTo_erase_ne {send : Send} (hne : send.session ≠ i) :
    (s.sending.erase send).filter (·.session = i) = s.sendsTo i := by
  rw [sendsTo, ← List.erase_filter]
  exact List.erase_of_not_mem fun hmem => hne (by simpa using (List.mem_filter.mp hmem).2)

theorem sendsTo_erase_self {send : Send} (hmem : send ∈ s.sending) (hsession : send.session = i)
    (hsingle : (s.sendsTo i).length ≤ 1) :
    s.sendsTo i = [send] ∧ (s.sending.erase send).filter (·.session = i) = [] := by
  have hsend : send ∈ s.sendsTo i := mem_sendsTo.mpr ⟨hmem, hsession⟩
  have hone : s.sendsTo i = [send] := by
    obtain ⟨other, hother⟩ := List.length_eq_one_iff.mp
      (le_antisymm hsingle (List.length_pos_of_mem hsend))
    rw [hother] at hsend ⊢
    rw [List.mem_singleton.mp hsend]
  refine ⟨hone, ?_⟩
  rw [← List.erase_filter]
  change (s.sendsTo i).erase send = []
  rw [hone, List.erase_cons_head]

theorem Carries.marked (h : s.Carries i bufs written) {send : Send} {state : SessionState}
    (hmem : send ∈ s.sending) (hmark : send.mark = some state) :
    State.Carries { s.update send.session { s.sessions send.session with state } with
      sending := { send with mark := none } :: s.sending.erase send } i bufs written := by
  by_cases hsession : send.session = i
  · subst hsession
    obtain ⟨hone, herase⟩ := sendsTo_erase_self hmem rfl h.single
    have hsends : sendsTo { s.update send.session { s.sessions send.session with state } with
        sending := { send with mark := none } :: s.sending.erase send } send.session =
        [{ send with mark := none }] :=
      (List.filter_cons_of_pos (by simp)).trans (by rw [herase])
    refine h.congr ?_ ?_ ?_ ?_
    · rw [messages, hsends, messages, hone]
      change ((s.update send.session _).sessions send.session).worker.current ++ _ ++ _ = _
      rw [sessions_update_same]
      rfl
    · change ((s.update send.session _).sessions send.session).state.usable = true
      rw [sessions_update_same]
      exact h.marks send (mem_sendsTo.mpr ⟨hmem, rfl⟩) state hmark
    · rw [hsends]
      exact le_rfl
    · rw [hsends]
      exact List.forall_mem_singleton.mpr fun state hstate => absurd hstate (by simp)
  · refine h.frame (sessions_update_ne s _ (Ne.symm hsession)) ?_
    exact (List.filter_cons_of_neg (by simpa using hsession)).trans (sendsTo_erase_ne hsession)

theorem current_eq_nil {worker : Worker} (h : worker.hasMutex = false) : worker.current = [] := by
  cases worker with
  | handling msg => cases h
  | deciding msg => cases h
  | starting => rfl
  | waiting => rfl
  | woken => rfl

theorem current_signal (worker : Worker) : worker.signal.current = worker.current := by
  cases worker <;> rfl

theorem Carries.queued (h : s.Carries i bufs written) {send : Send} (hmem : send ∈ s.sending)
    (hmutex : (s.sessions send.session).worker.hasMutex = false) :
    State.Carries { s.update send.session ((s.sessions send.session).put send.msg) with
      sending := s.sending.erase send } i bufs written := by
  by_cases hsession : send.session = i
  · subst hsession
    obtain ⟨hone, herase⟩ := sendsTo_erase_self hmem rfl h.single
    refine h.congr ?_ ?_ ?_ ?_
    · rw [messages, messages, hone]
      change ((s.update send.session _).sessions send.session).worker.current ++
        ((s.update send.session _).sessions send.session).msgQ ++
        ((s.sending.erase send).filter (·.session = send.session)).map Send.msg = _
      rw [sessions_update_same, herase]
      change (s.sessions send.session).worker.signal.current ++
        ((s.sessions send.session).msgQ ++ [send.msg]) ++ [] = _
      rw [current_signal, current_eq_nil hmutex]
      simp
    · change ((s.update send.session _).sessions send.session).state.usable = true
      rw [sessions_update_same]
      exact h.usable
    · exact (congrArg List.length herase).le.trans (Nat.zero_le 1)
    · intro other hother
      change other ∈ (s.sending.erase send).filter (·.session = send.session) at hother
      rw [herase] at hother
      cases hother
  · exact h.frame (sessions_update_ne s _ (Ne.symm hsession)) (sendsTo_erase_ne hsession)

theorem Carries.popped (h : s.Carries i bufs written) {signalled : Bool} {msg : Msg}
    {msgQ : List Msg} (hworker : (s.sessions j).worker = .woken signalled)
    (hmsgQ : (s.sessions j).msgQ = msg :: msgQ) (overrun : Bool) :
    State.Carries { s.update j ((s.sessions j).take msg msgQ) with overrun } i bufs written := by
  have hpopped : (s.update j ((s.sessions j).take msg msgQ)).Carries i bufs written := by
    by_cases hj : j = i
    · subst hj
      have hwrite := (h.msgs msg (by simp [messages, hmsgQ])).1
      refine h.update (Session.take_state _ msgQ (by simp [Msg.isOpen, hwrite])) ?_
      rw [Session.take_worker, Session.take_msgQ, hworker, hmsgQ]
      rfl
    · exact h.update_ne hj _
  exact hpopped.frame rfl rfl

theorem Carries.connected (h : s.Carries i bufs written) {msg : Msg} (calls : SysCalls)
    (hworker : (s.sessions j).worker = .handling msg) (hmsgId : msg.msgId = .socketOpen)
    (openFds : List ℕ) :
    State.Carries { s.update j ((s.sessions j).connect msg calls) with openFds } i bufs
      written := by
  have hj : j ≠ i := by
    rintro rfl
    have hwrite := (h.msgs msg (by simp [messages, hworker, Worker.current])).1
    cases hmsgId.symm.trans hwrite
  exact h.frame (sessions_update_ne s _ (Ne.symm hj)) rfl

theorem Carries.handled (h : s.Carries i bufs written) {calls : SysCalls} {msg : Msg}
    {handled : Handled} (hresults : j = i → ∀ r ∈ calls.transfers, r ≠ .error)
    (hh : Session.Handles (s.sessions j) j msg calls handled)
    (bound : List (ℕ × Fin SESSION_MAX_COUNT)) (openFds : List ℕ) (reports : List Report)
    (overrun : Bool) :
    State.Carries { s.update j handled.session.wait with
      bound, openFds, reports, overrun } i bufs (written ++ s.socketBytes i (.handle j calls)) := by
  by_cases hj : j = i
  · subst hj
    have hcurrent : (s.sessions j).worker.current = [msg] := by
      obtain ⟨hworker, -⟩ | hworker := hh.worker <;> rw [hworker] <;> rfl
    have hmessages : s.messages j =
        msg :: ((s.sessions j).msgQ ++ (s.sendsTo j).map Send.msg) := by
      rw [messages, hcurrent]
      rfl
    obtain ⟨hwrite, hlen, -⟩ := h.msgs msg (by rw [hmessages]; exact List.mem_cons_self)
    obtain ⟨hworker, n, failed, hloop⟩ := hh.exists_writeLoop hwrite
    obtain ⟨-, hstate, -, hreset⟩ := hh.transfer_frame hworker (by simp [hwrite])
    have hmsgQ : handled.session.msgQ = (s.sessions j).msgQ := by
      rw [hh.msgQ, hreset]
      rfl
    have hbytes : s.socketBytes j (.handle j calls) = msg.data := by
      rw [socketBytes, if_pos rfl, hcurrent]
      change (if msg.msgId = .socketWrite then _ else []) ++ [] = _
      rw [if_pos hwrite, List.append_nil, writtenBytes_all hlen hloop (hresults rfl)]
    have hafter : State.messages { s.update j handled.session.wait with
        bound, openFds, reports, overrun } j =
        (s.sessions j).msgQ ++ (s.sendsTo j).map Send.msg := by
      change ((s.update j _).sessions j).worker.current ++ ((s.update j _).sessions j).msgQ ++
        (s.sendsTo j).map Send.msg = _
      rw [sessions_update_same]
      change [] ++ handled.session.msgQ ++ _ = _
      rw [hmsgQ]
      rfl
    constructor
    case usable =>
      change ((s.update j _).sessions j).state.usable = true
      rw [sessions_update_same]
      change handled.session.state.usable = true
      rw [hstate]
      exact h.usable
    case msgs =>
      rw [hafter]
      exact fun other hother => h.msgs other
        (by rw [hmessages]; exact List.mem_cons_of_mem _ hother)
    case bytes =>
      rw [hafter, hbytes, h.bytes, hmessages, List.flatMap_cons, List.append_assoc]
    case single => exact h.single
    case marks => exact h.marks
  · have hbytes : s.socketBytes i (.handle j calls) = [] := if_neg hj
    rw [hbytes, List.append_nil]
    exact h.frame (sessions_update_ne s _ (Ne.symm hj)) rfl

end Steps

end State

end Mbtk.Stanet
