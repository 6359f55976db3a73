import Mbtk.Stanet.Session

namespace Mbtk.Stanet

/-- The outcomes of the system calls with which `socket_open` ends in the state OPENED. -/
def SysCalls.connected (calls : SysCalls) : Bool :=
  calls.socket.isSome && calls.getFlags && calls.setFlags && calls.gethostbyname &&
    calls.connect ≠ .failed &&
    (calls.select = .ready false true ||
      calls.select = .ready true true && calls.getsockopt = some 0)

/-- The failures on which `socket_open` leaves the error of the session as it is. -/
def SysCalls.silent (calls : SysCalls) : Bool :=
  calls.socket.isNone || !calls.getFlags || !calls.setFlags ||
    calls.gethostbyname && calls.connect ≠ .failed && calls.select = .timeout

namespace Session

def opens (session : Session) (calls : SysCalls) : Bool :=
  if session.port > 0 then calls.connected else session.state = .opened

/-- Everything but the descriptor, the error and the state. -/
structure Frame (session session' : Session) : Prop where
  host : session'.host = session.host
  port : session'.port = session.port
  threadId : session'.threadId = session.threadId
  msgQ : session'.msgQ = session.msgQ
  worker : session'.worker = session.worker
  puts : session'.puts = session.puts
  handled : session'.handled = session.handled
  putsInWait : session'.putsInWait = session.putsInWait

variable {session : Session} {msg : Msg} {calls : SysCalls}

theorem Frame.refl (session : Session) : Frame session session :=
  ⟨rfl, rfl, rfl, rfl, rfl, rfl, rfl, rfl⟩

theorem awaitConnect_frame (session : Session) (calls : SysCalls) :
    Frame session (session.awaitConnect calls) := by
  unfold awaitConnect
  split
  · exact ⟨rfl, rfl, rfl, rfl, rfl, rfl, rfl, rfl⟩
  · split
    · exact ⟨rfl, rfl, rfl, rfl, rfl, rfl, rfl, rfl⟩
    · split <;> exact ⟨rfl, rfl, rfl, rfl, rfl, rfl, rfl, rfl⟩
  · exact ⟨rfl, rfl, rfl, rfl, rfl, rfl, rfl, rfl⟩
  · exact ⟨rfl, rfl, rfl, rfl, rfl, rfl, rfl, rfl⟩

theorem socketOpen_frame (session : Session) (calls : SysCalls) :
    Frame session (session.socketOpen calls) := by
  unfold socketOpen
  dsimp only
  split
  · exact ⟨rfl, rfl, rfl, rfl, rfl, rfl, rfl, rfl⟩
  · split_ifs
    any_goals exact ⟨rfl, rfl, rfl, rfl, rfl, rfl, rfl, rfl⟩
    obtain ⟨h1, h2, h3, h4, h5, h6, h7, h8⟩ := awaitConnect_frame
      { session with state := .opening, sockfd := some _ } calls
    exact ⟨h1, h2, h3, h4, h5, h6, h7, h8⟩

theorem afterOpen_frame (session : Session) (calls : SysCalls) :
    Frame session (session.afterOpen calls) := by
  unfold afterOpen
  split
  · exact socketOpen_frame session calls
  · exact Frame.refl session

theorem awaitConnect_state (session : Session) (calls : SysCalls) :
    (session.awaitConnect calls).state = .opened ↔
      calls.select = .ready false true ∨
        calls.select = .ready true true ∧ calls.getsockopt = some 0 := by
  unfold awaitConnect
  rcases hselect : calls.select with _ | ⟨rset, wset⟩
  · simp
  · cases rset <;> cases wset
    · simp
    · simp
    · simp
    · rcases calls.getsockopt with _ | error
      · simp
      · by_cases herror : error = 0 <;> simp [herror]

theorem socketOpen_state (session : Session) (calls : SysCalls) :
    (session.socketOpen calls).state = .opened ↔ calls.connected := by
  unfold socketOpen SysCalls.connected
  rcases calls.socket with _ | sockfd
  · simp
  · cases calls.getFlags <;> cases calls.setFlags <;> cases calls.gethostbyname <;> simp
    by_cases hconnect : calls.connect = .failed
    · simp [hconnect]
    · simp [hconnect, awaitConnect_state]

theorem afterOpen_state (session : Session) (calls : SysCalls) :
    (session.afterOpen calls).state = .opened ↔ session.opens calls := by
  unfold afterOpen opens
  split
  · exact socketOpen_state session calls
  · simp

theorem awaitConnect_err (session : Session) (calls : SysCalls) :
    (session.awaitConnect calls).err = .success ↔
      session.err = .success ∧
        (calls.select = .timeout ∨ (session.awaitConnect calls).state = .opened) := by
  unfold awaitConnect
  rcases hselect : calls.select with _ | ⟨rset, wset⟩
  · simp
  · cases rset <;> cases wset
    · simp
    · simp
    · simp
    · rcases calls.getsockopt with _ | error
      · simp
      · by_cases herror : error = 0 <;> simp [herror]

theorem socketOpen_err (session : Session) (calls : SysCalls) :
    (session.socketOpen calls).err = .success ↔
      session.err = .success ∧ (calls.silent ∨ calls.connected) := by
  unfold socketOpen SysCalls.silent SysCalls.connected
  rcases calls.socket with _ | sockfd
  · simp
  · cases calls.getFlags <;> cases calls.setFlags <;> cases calls.gethostbyname <;> simp
    by_cases hconnect : calls.connect = .failed
    · simp [hconnect]
    · simp [hconnect, awaitConnect_err, awaitConnect_state]

theorem afterOpen_err (h : session.opens calls = false) :
    (session.afterOpen calls).err = .success ↔
      session.err = .success ∧ (session.port > 0 → calls.silent) := by
  unfold opens at h
  unfold afterOpen
  split at h
  case isTrue hport =>
    rw [if_pos hport, socketOpen_err, h]
    simp [hport]
  case isFalse hport =>
    rw [if_neg hport]
    simp [hport]

end Session

section Loops

def CallResult.count : CallResult → ℕ
  | .moved bytes => bytes.length
  | _ => 0

def CallResult.goesOn : CallResult → Bool
  | .wouldBlock => true
  | .error => false
  | .moved bytes => bytes ≠ []

/-- The peer ends the stream while `left` bytes are still wanted. -/
def EndsEarly (left : ℤ) (results : List CallResult) : Prop :=
  ∃ front back, results = front ++ .moved [] :: back ∧ (∀ r ∈ front, r.goesOn) ∧
    ((front.map CallResult.count).sum : ℤ) < left

variable {dataLen left : ℤ} {results : List CallResult} {failed : Bool}

theorem not_endsEarly_nil : ¬ EndsEarly left [] := by
  rintro ⟨front, back, h, -⟩
  simp at h

theorem not_endsEarly (h : left ≤ 0) : ¬ EndsEarly left results := by
  rintro ⟨front, back, -, -, hlt⟩
  omega

theorem endsEarly_end (h : 0 < left) : EndsEarly left (.moved [] :: results) :=
  ⟨[], results, rfl, by simp, by simpa using h⟩

theorem endsEarly_cons {r : CallResult} (h : r.goesOn) :
    EndsEarly left (r :: results) ↔ EndsEarly (left - r.count) results := by
  constructor
  · rintro ⟨front, back, heq, hgo, hlt⟩
    cases front with
    | nil =>
      obtain ⟨rfl, -⟩ := List.cons.inj heq
      simp [CallResult.goesOn] at h
    | cons r' front =>
      obtain ⟨rfl, htail⟩ := List.cons.inj heq
      simp only [List.map_cons, List.sum_cons, Nat.cast_add] at hlt
      exact ⟨front, back, htail, fun x hx => hgo x (List.mem_cons_of_mem _ hx), by omega⟩
  · rintro ⟨front, back, rfl, hgo, hlt⟩
    refine ⟨r :: front, back, rfl, ?_, ?_⟩
    · intro x hx
      rcases List.mem_cons.mp hx with rfl | hx
      · exact h
      · exact hgo x hx
    · simp only [List.map_cons, List.sum_cons, Nat.cast_add]
      omega

theorem not_endsEarly_error : ¬ EndsEarly left (.error :: results) := by
  rintro ⟨front, back, heq, hgo, -⟩
  cases front with
  | nil => simp at heq
  | cons r front =>
    obtain ⟨rfl, -⟩ := List.cons.inj heq
    simpa [CallResult.goesOn] using hgo _ List.mem_cons_self

def endsEarly : ℤ → List CallResult → Bool
  | _, [] => false
  | left, .moved [] :: _ => 0 < left
  | left, r :: results => r.goesOn && endsEarly (left - r.count) results

theorem endsEarly_iff (left : ℤ) (results : List CallResult) :
    endsEarly left results = true ↔ EndsEarly left results := by
  induction left, results using endsEarly.induct with
  | case1 left => exact iff_of_false (by simp [endsEarly]) not_endsEarly_nil
  | case2 left results =>
    rw [endsEarly, decide_eq_true_iff]
    exact ⟨endsEarly_end, fun h => by_contra fun hle => not_endsEarly (not_lt.mp hle) h⟩
  | case3 left r results hr ih =>
    rw [endsEarly, Bool.and_eq_true, ih]
    · cases r with
      | error => exact iff_of_false (by simp [CallResult.goesOn]) not_endsEarly_error
      | wouldBlock => exact (and_iff_right rfl).trans (endsEarly_cons rfl).symm
      | moved bytes =>
        have hgo : (CallResult.moved bytes).goesOn = true := by
          simpa [CallResult.goesOn] using fun hnil => hr (congrArg CallResult.moved hnil)
        rw [endsEarly_cons hgo, and_iff_right hgo]
    · exact hr

instance (left : ℤ) (results : List CallResult) : Decidable (EndsEarly left results) :=
  decidable_of_iff _ (endsEarly_iff left results)

theorem writeLoop_spec {count n : ℕ} (h : writeLoop dataLen count results = some (n, failed)) :
    if failed then (n : ℤ) < dataLen else dataLen ≤ n ∧ (n = count ∨ (n : ℤ) = dataLen) := by
  induction results generalizing count with
  | nil =>
    unfold writeLoop at h
    split_ifs at h with hlt
    cases h
    simp only [Bool.false_eq_true, if_false, true_or, and_true]
    omega
  | cons r results ih =>
    unfold writeLoop at h
    split_ifs at h with hlt
    · cases r with
      | wouldBlock => exact ih h
      | error =>
        cases h
        simpa using hlt
      | moved bytes =>
        dsimp only at h
        split_ifs at h with hfit
        have hrest := ih h
        cases failed with
        | true => exact hrest
        | false =>
          simp only [Bool.false_eq_true, if_false] at hrest ⊢
          omega
    · cases h
      simp only [Bool.false_eq_true, if_false, true_or, and_true]
      omega

theorem readLoop_le {buf buf' : List UInt8} (hbuf : (buf.length : ℤ) ≤ dataLen)
    (h : readLoop dataLen buf results = some (buf', failed)) :
    (buf'.length : ℤ) ≤ dataLen ∧ (failed = true → (buf'.length : ℤ) < dataLen) := by
  induction results generalizing buf with
  | nil =>
    unfold readLoop at h
    split_ifs at h with hlt
    cases h
    exact ⟨hbuf, fun h => by cases h⟩
  | cons r results ih =>
    unfold readLoop at h
    split_ifs at h with hlt
    · cases r with
      | wouldBlock => exact ih hbuf h
      | error =>
        cases h
        exact ⟨hbuf, fun _ => hlt⟩
      | moved bytes =>
        dsimp only at h
        split_ifs at h with hnil hfit
        · cases h
          exact ⟨hbuf, fun h => by cases h⟩
        · exact ih (by simpa using hfit) h
    · cases h
      exact ⟨hbuf, fun h => by cases h⟩

theorem readLoop_short {buf buf' : List UInt8}
    (h : readLoop dataLen buf results = some (buf', failed)) :
    failed = false ∧ (buf'.length : ℤ) < dataLen ↔ EndsEarly (dataLen - buf.length) results := by
  induction results generalizing buf with
  | nil =>
    unfold readLoop at h
    split_ifs at h with hlt
    cases h
    exact iff_of_false (fun h => hlt h.2) not_endsEarly_nil
  | cons r results ih =>
    unfold readLoop at h
    split_ifs at h with hlt
    · cases r with
      | wouldBlock =>
        rw [ih h, endsEarly_cons rfl]
        simp [CallResult.count]
      | error =>
        cases h
        exact iff_of_false (fun h => by cases h.1) not_endsEarly_error
      | moved bytes =>
        dsimp only at h
        split_ifs at h with hnil hfit
        · cases h
          subst hnil
          exact iff_of_true ⟨rfl, hlt⟩ (endsEarly_end (by omega))
        · rw [ih h, endsEarly_cons (by simpa [CallResult.goesOn] using hnil), CallResult.count,
            List.length_append, Nat.cast_add, Int.sub_sub]
    · cases h
      exact iff_of_false (fun h => hlt h.2) (not_endsEarly (by omega))

end Loops

namespace Session

variable {session : Session} {id : Fin SESSION_MAX_COUNT} {msg : Msg} {calls : SysCalls}

/-- The loop of a WRITE or of a READ moved `count` bytes. -/
def Transfers (msg : Msg) (calls : SysCalls) (count : ℕ) (failed : Bool) : Prop :=
  msg.msgId = .socketWrite ∧ writeLoop msg.dataLen 0 calls.transfers = some (count, failed) ∨
    msg.msgId = .socketRead ∧ 0 ≤ msg.dataLen ∧
      ∃ buf, readLoop msg.dataLen [] calls.transfers = some (buf, failed) ∧ count = buf.length

inductive Handles (session : Session) (id : Fin SESSION_MAX_COUNT) (msg : Msg)
    (calls : SysCalls) : Handled → Prop
  | opened : session.worker = .deciding msg → msg.msgId = .socketOpen → session.state = .opened →
      Handles session id msg calls
        { session
          closed := none
          wasReset := false
          report := ⟨msg, ⟨some id, .socketOpen, .success, none, 0⟩, .opened, 0⟩ }
  | refused : session.worker = .deciding msg → msg.msgId = .socketOpen →
      session.state ≠ .opened →
      Handles session id msg calls
        { session := session.reset
          closed := session.sockfd
          wasReset := true
          report := ⟨msg, ⟨none, .socketOpen, session.err, none, 0⟩, session.state, 0⟩ }
  | transfer (count : ℕ) (failed : Bool) (data : Option (List UInt8)) :
      session.worker = .handling msg → Transfers msg calls count failed →
      Handles session id msg calls (session.handleTransfer id msg count failed data)
  | closed : session.worker = .handling msg → msg.msgId = .socketClose →
      Handles session id msg calls (session.handleClose id msg)

theorem handles_of_handle {h : Handled} (hh : session.handle id calls = some h) :
    ∃ msg, Handles session id msg calls h := by
  unfold handle at hh
  split at hh
  case h_1 msg hworker =>
    split_ifs at hh with hid
    obtain rfl := Option.some.inj hh
    refine ⟨msg, ?_⟩
    unfold handleOpen
    split_ifs with hstate
    · rw [hstate]
      exact .opened hworker hid hstate
    · exact .refused hworker hid hstate
  case h_2 msg hworker =>
    refine ⟨msg, ?_⟩
    split at hh
    · cases hh
    case h_2 hid =>
      unfold handleWrite at hh
      obtain ⟨⟨count, failed⟩, hloop, hh⟩ := Option.bind_eq_some_iff.mp hh
      cases hh
      exact .transfer count failed none hworker (.inl ⟨hid, hloop⟩)
    case h_3 hid =>
      unfold handleRead at hh
      split_ifs at hh with hneg
      obtain ⟨⟨buf, failed⟩, hloop, hh⟩ := Option.bind_eq_some_iff.mp hh
      cases hh
      exact .transfer buf.length failed (some buf) hworker
        (.inr ⟨hid, by omega, buf, hloop, rfl⟩)
    case h_4 hid =>
      cases hh
      exact .closed hworker hid
  case h_3 => cases hh

section

variable {h : Handled}

theorem Handles.puts (hh : Handles session id msg calls h) : h.session.puts = session.puts := by
  cases hh with
  | opened => rfl
  | refused => rfl
  | transfer count failed =>
    unfold handleTransfer
    cases failed <;> rfl
  | closed => rfl

theorem Handles.handled (hh : Handles session id msg calls h) :
    h.session.handled = session.handled := by
  cases hh with
  | opened => rfl
  | refused => rfl
  | transfer count failed =>
    unfold handleTransfer
    cases failed <;> rfl
  | closed => rfl

theorem Handles.threadId (hh : Handles session id msg calls h) :
    h.session.threadId = session.threadId := by
  cases hh with
  | opened => rfl
  | refused => rfl
  | transfer count failed =>
    unfold handleTransfer
    cases failed <;> rfl
  | closed => rfl

theorem Handles.msgQ (hh : Handles session id msg calls h) :
    h.session.msgQ = if h.wasReset then [] else session.msgQ := by
  cases hh with
  | opened => rfl
  | refused => rfl
  | transfer count failed =>
    unfold handleTransfer
    cases failed <;> rfl
  | closed => rfl

theorem Handles.worker (hh : Handles session id msg calls h) :
    session.worker = .deciding msg ∧ msg.msgId = .socketOpen ∨ session.worker = .handling msg := by
  cases hh with
  | opened hworker hid => exact .inl ⟨hworker, hid⟩
  | refused hworker hid => exact .inl ⟨hworker, hid⟩
  | transfer _ _ _ hworker => exact .inr hworker
  | closed hworker => exact .inr hworker

theorem Handles.hasMutex (hh : Handles session id msg calls h) :
    session.worker.hasMutex = true := by
  obtain ⟨hworker, -⟩ | hworker := hh.worker <;> rw [hworker] <;> rfl

theorem Transfers.msgId {count : ℕ} {failed : Bool} (h : Transfers msg calls count failed) :
    msg.msgId = .socketWrite ∨ msg.msgId = .socketRead := by
  rcases h with ⟨h, -⟩ | ⟨h, -⟩
  · exact .inl h
  · exact .inr h

end

theorem take_eq (session : Session) (msg : Msg) (msgQ : List Msg) :
    (session.take msg msgQ).Frame
      { session.take msg msgQ with
        msgQ
        worker := .handling msg
        puts := session.puts
        handled := session.handled ++ [msg.serial]
        threadId := session.threadId
        putsInWait := session.putsInWait } := by
  unfold take
  split_ifs <;> exact ⟨rfl, rfl, rfl, rfl, rfl, rfl, rfl, rfl⟩

theorem take_msgQ (session : Session) (msg : Msg) (msgQ : List Msg) :
    (session.take msg msgQ).msgQ = msgQ := (session.take_eq msg msgQ).msgQ.symm

theorem take_puts (session : Session) (msg : Msg) (msgQ : List Msg) :
    (session.take msg msgQ).puts = session.puts := (session.take_eq msg msgQ).puts.symm

theorem take_handled (session : Session) (msg : Msg) (msgQ : List Msg) :
    (session.take msg msgQ).handled = session.handled ++ [msg.serial] :=
  (session.take_eq msg msgQ).handled.symm

theorem take_worker (session : Session) (msg : Msg) (msgQ : List Msg) :
    (session.take msg msgQ).worker = .handling msg := (session.take_eq msg msgQ).worker.symm

theorem take_threadId (session : Session) (msg : Msg) (msgQ : List Msg) :
    (session.take msg msgQ).threadId = session.threadId := (session.take_eq msg msgQ).threadId.symm

theorem take_putsInWait (session : Session) (msg : Msg) (msgQ : List Msg) :
    (session.take msg msgQ).putsInWait = session.putsInWait :=
  (session.take_eq msg msgQ).putsInWait.symm

end Session

end Mbtk.Stanet
