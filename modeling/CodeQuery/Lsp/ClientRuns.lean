/-
  CodeQuery.Lsp.ClientRuns — what becomes of the calls of a connection
  (see `CodeQuery.Lsp.Client`).

  `Stage` says where a session is: before the first request that can be written
  (`Unwritten`), with that request on its way or answered, or past it (`Past`), when the
  daemon has closed the stream. Every step keeps it (`step_stage`) and every run ends
  (`step_measure`), so the calls the daemon can serve are all served exactly when none of
  them comes after another that was written (`all_served_iff`).
-/

import CodeQuery.Lsp.Client

namespace CodeQuery.Lsp.Client

open CodeQuery.Core CodeQuery.Text CodeQuery.Lsp.Socket CodeQuery.Lsp.Daemon

/-! ## Reads -/

section Reads

variable {μ : Type} {c : Codec μ}

theorem Fits.written {m : μ} (h : Fits c m) :
    ∃ bytes, Socket.writeMessage c m = some bytes ∧ ∀ rest, Socket.readMessage c (bytes ++ rest) = (.ok m, rest) := by
  obtain ⟨json, hencode, hfits⟩ := h
  let w : Written c := ⟨m, json, hencode⟩
  exact ⟨w.bytes, w.written, readMessage_written w hfits⟩

theorem Fits.read {m : μ} (h : Fits c m) {bytes : Str} (hw : Socket.writeMessage c m = some bytes) :
    Socket.readMessage c bytes = (.ok m, []) := by
  obtain ⟨bytes', hw', hread⟩ := h.written
  obtain rfl : bytes' = bytes := Option.some.inj (hw'.symm.trans hw)
  simpa using hread []

theorem runsOut_nil : runsOut (Socket.readMessage c []).1 = true := rfl

/-- A frame is long enough for any length in front of it. -/
theorem runsOut_of_written {m : μ} {bytes : Str} (hw : Socket.writeMessage c m = some bytes) :
    runsOut (Socket.readMessage c bytes).1 = false := by
  obtain ⟨json, -, rfl⟩ := Option.map_eq_some_iff.mp hw
  have hread := readExact_frame json []
  have hlen : fromBeBytes (toBeBytes (.ofNat json.length)) ≤ json.length := by
    rw [fromBeBytes_toBeBytes, UInt32.toNat_ofNat']
    exact Nat.mod_le ..
  rw [List.append_nil, List.append_nil] at hread
  simp only [Socket.readMessage, hread]
  split
  · rfl
  · simp only [readExact, hlen, if_true]
    split <;> rfl

end Reads

/-! ## Every run ends -/

section Runs

variable {cq : Codec DaemonRequest} {cr : Codec DaemonResponse}

def Phase.measure : Phase → Nat
  | .awaitAuth => 2
  | .awaitRequest => 1
  | .closed => 0

def ClientState.measure : ClientState → Nat
  | .connecting _ => 2
  | .authenticating => 1
  | .waiting _ => 1
  | .idle => 0
  | .failed _ => 0

def Session.measure (s : Session) : Nat := s.phase.measure + s.client.measure + 2 * s.calls.length

theorem connectResult_measure (r : Except LspError DaemonResponse) : (connectResult r).measure = 0 := by
  unfold connectResult
  split <;> rfl

theorem serve_measure (h : Host) {s : Session} (hopen : s.phase ≠ .closed) (r : Except LspError DaemonRequest × Str) :
    (s.serve cr h r).measure < s.measure := by
  have hphase : (s.serve cr h r).phase.measure < s.phase.measure := by
    unfold Session.serve
    split
    · cases hp : s.phase <;> simp_all [Phase.measure]
    · split
      · split <;> simp_all [Phase.measure]
      · simp_all [Phase.measure]
      · contradiction
  simp only [Session.measure, serve_client, serve_calls]
  omega

theorem step_measure {s s' : Session} (h : Step cq cr s s') : s'.measure < s.measure := by
  cases h with
  | authenticate token bytes hc _ => simp [Session.measure, hc, ClientState.measure]
  | unwritableToken token hc _ => simp [Session.measure, hc, ClientState.measure]
  | authenticated hc _ =>
    have hm := connectResult_measure (Socket.readMessage cr s.down).1
    simp only [Session.measure, hm, hc]
    simp [ClientState.measure]
  | issue call calls bytes hc hcalls _ => simp [Session.measure, hc, hcalls, ClientState.measure]; omega
  | unwritable call calls hc hcalls _ => simp [Session.measure, Session.done, hc, hcalls, ClientState.measure]
  | broken call calls bytes e hc hcalls _ _ => simp [Session.measure, Session.done, hc, hcalls, ClientState.measure]
  | receive call hc _ => simp [Session.measure, Session.done, hc, ClientState.measure]
  | reset call e hc _ _ => simp [Session.measure, Session.done, hc, ClientState.measure]
  | serve h hopen _ => exact serve_measure h hopen _

/-! ## Where a session is -/

variable (cq) in
/-- None of the calls done so far could be written. -/
def Unwritten (log : List (Call × Except LspError DaemonResponse)) : Prop :=
  ∀ e ∈ log, Socket.writeMessage cq e.1.request = none

variable (cq cr) in
/-- Past the first call that was written: nothing but that call was answered, and if its
    messages fit it got the answer. -/
def Past (log : List (Call × Except LspError DaemonResponse)) (answered : List Answer) : Prop :=
  ∃ before call outcome later, log = before ++ (call, outcome) :: later ∧ Unwritten cq before ∧
    Socket.writeMessage cq call.request ≠ none ∧ (∀ a ∈ answered, a.call = before.length) ∧
    (Fits cq call.request → ∃ response, ⟨before.length, call.request, response⟩ ∈ answered ∧
      (Fits cr response → outcome = .ok response))

variable (cq cr) in
inductive Stage (token : String) (s : Session) : Prop
  | connecting : Unwritten cq s.log → s.answered = [] → s.daemon.token = token → s.client = .connecting token →
      s.phase = .awaitAuth → s.up = [] → s.down = [] → Stage token s
  | authenticating : Unwritten cq s.log → s.answered = [] → s.daemon.token = token → s.client = .authenticating →
      s.phase = .awaitAuth → Socket.writeMessage cq (.authenticate token) = some s.up → s.down = [] → Stage token s
  | admitted : Unwritten cq s.log → s.answered = [] → s.client = .authenticating → s.phase = .awaitRequest →
      s.up = [] → Socket.writeMessage cr .authOk = some s.down → Stage token s
  | idle : Unwritten cq s.log → s.answered = [] → s.client = .idle → s.phase = .awaitRequest → s.up = [] →
      s.down = [] → Stage token s
  | asked (call : Call) : Unwritten cq s.log → s.answered = [] → s.client = .waiting call → s.phase = .awaitRequest →
      Socket.writeMessage cq call.request = some s.up → s.down = [] → Stage token s
  | answered (call : Call) : Unwritten cq s.log → s.client = .waiting call → s.phase = .closed →
      Socket.writeMessage cq call.request ≠ none → (∀ a ∈ s.answered, a.call = s.log.length) →
      (Fits cq call.request → s.up = [] ∧ ∃ response, ⟨s.log.length, call.request, response⟩ ∈ s.answered ∧
        (Fits cr response → Socket.writeMessage cr response = some s.down)) → Stage token s
  | past : Past cq cr s.log s.answered → s.phase = .closed → (s.client = .idle ∨ ∃ call, s.client = .waiting call) →
      Stage token s

section Stages

variable {token : String} {s s' : Session}

theorem connect_stage (d : Daemon) (calls : List Call) : Stage cq cr d.token (connect d d.token calls) :=
  .connecting (by simp [Unwritten, connect]) rfl rfl rfl rfl rfl rfl

theorem Unwritten.done {log : List (Call × Except LspError DaemonResponse)} (h : Unwritten cq log) {call : Call}
    (hcall : Socket.writeMessage cq call.request = none) (outcome : Except LspError DaemonResponse) :
    Unwritten cq (log ++ [(call, outcome)]) := by
  intro e he
  rcases List.mem_append.mp he with he | he
  · exact h e he
  · obtain rfl := List.mem_singleton.mp he
    exact hcall

theorem Past.done {log : List (Call × Except LspError DaemonResponse)} {answered : List Answer}
    (h : Past cq cr log answered) (e : Call × Except LspError DaemonResponse) : Past cq cr (log ++ [e]) answered := by
  obtain ⟨before, call, outcome, later, rfl, hrest⟩ := h
  exact ⟨before, call, outcome, later ++ [e], by simp, hrest⟩

theorem serve_closed (h : Host) (hphase : s.phase = .awaitRequest) (r : Except LspError DaemonRequest × Str) :
    (s.serve cr h r).phase = .closed := by
  rcases r with ⟨e | request, rest⟩ <;> simp [Session.serve, hphase]

theorem serve_answered (h : Host) (hphase : s.phase = .awaitRequest) (hnone : s.answered = [])
    (r : Except LspError DaemonRequest × Str) : ∀ a ∈ (s.serve cr h r).answered, a.call = s.log.length := by
  rcases r with ⟨e | request, rest⟩ <;> simp [Session.serve, Session.send, hphase, hnone]

theorem serve_stage (h : Host) (hauth : Fits cq (.authenticate token)) (hok : Fits cr .authOk)
    (hs : Stage cq cr token s) (hopen : s.phase ≠ .closed) (hread : runsOut (Socket.readMessage cq s.up).1 = false) :
    Stage cq cr token (s.serve cr h (Socket.readMessage cq s.up)) := by
  cases hs with
  | connecting _ _ _ _ _ hup _ => simp [hup, runsOut_nil] at hread
  | authenticating hlog hanswered htoken hclient hphase hup hdown =>
    obtain ⟨bytes, hw, -⟩ := hok.written
    have hserve : s.serve cr h (Socket.readMessage cq s.up) =
        { s.send cr .authOk with phase := .awaitRequest, up := [] } := by
      simp [hauth.read hup, Session.serve, hphase, authOk, htoken]
    rw [hserve]
    exact .admitted hlog hanswered hclient rfl rfl (by simp [Session.send, hdown, hw])
  | admitted _ _ _ _ hup _ => simp [hup, runsOut_nil] at hread
  | idle _ _ _ _ hup _ => simp [hup, runsOut_nil] at hread
  | asked call hlog hanswered hclient hphase hup hdown =>
    have hlen : (s.serve cr h (Socket.readMessage cq s.up)).log.length = s.log.length := by rw [serve_log]
    refine .answered call (by simpa using hlog) (by simpa using hclient) (serve_closed h hphase _) (by simp [hup])
      (hlen ▸ serve_answered h hphase hanswered _) fun hfits => ?_
    -- the frame is read to its end, and the answer goes out behind an empty stream
    have hserve : s.serve cr h (Socket.readMessage cq s.up) =
        { s.send cr (handleRequest h s.daemon call.request).1 with
          phase := .closed, up := [], daemon := (handleRequest h s.daemon call.request).2.2,
          stopped := (handleRequest h s.daemon call.request).2.1,
          answered := s.answered ++
            [⟨s.log.length, call.request, (handleRequest h s.daemon call.request).1⟩] } := by
      simp [hfits.read hup, Session.serve, hphase]
    rw [hserve]
    refine ⟨rfl, (handleRequest h s.daemon call.request).1, by simp [Session.send], fun hresponse => ?_⟩
    obtain ⟨bytes, hw, -⟩ := hresponse.written
    simp [Session.send, hdown, hw]
  | answered _ _ _ hclosed => exact absurd hclosed hopen
  | past _ hclosed _ => exact absurd hclosed hopen

theorem step_stage (hauth : Fits cq (.authenticate token)) (hok : Fits cr .authOk) (hs : Stage cq cr token s)
    (h : Step cq cr s s') : Stage cq cr token s' := by
  cases h with
  | authenticate token' bytes hc hw =>
    cases hs with
    | connecting hlog hanswered htoken hclient hphase hup hdown =>
      obtain rfl : token = token' := by simpa [hclient] using hc
      exact .authenticating hlog hanswered htoken rfl hphase (by simp [hup, hw]) hdown
    | _ => simp_all
  | unwritableToken token' hc hw =>
    cases hs with
    | connecting _ _ _ hclient _ _ _ =>
      obtain rfl : token = token' := by simpa [hclient] using hc
      obtain ⟨bytes, hw', -⟩ := hauth.written
      simp [hw] at hw'
    | _ => simp_all
  | authenticated hc hends =>
    cases hs with
    | authenticating _ _ _ _ hphase _ hdown => simp [hdown, runsOut_nil, hphase] at hends
    | admitted hlog hanswered _ hphase hup hdown =>
      rw [hok.read hdown]
      exact .idle hlog hanswered rfl hphase hup rfl
    | _ => simp_all
  | issue call calls bytes hc _ hw =>
    cases hs with
    | idle hlog hanswered _ hphase hup hdown =>
      exact .asked call hlog hanswered rfl hphase (by simp [hup, hw]) hdown
    | past hpast hphase _ => exact .past hpast hphase (.inr ⟨call, rfl⟩)
    | _ => simp_all
  | unwritable call calls hc _ hw =>
    cases hs with
    | idle hlog hanswered _ hphase hup hdown => exact .idle (hlog.done hw _) hanswered rfl hphase hup hdown
    | past hpast hphase _ => exact .past (hpast.done _) hphase (.inl rfl)
    | _ => simp_all
  | broken call calls bytes e hc _ _ hclosed =>
    cases hs with
    | past hpast hphase _ => exact .past (hpast.done _) hphase (.inl rfl)
    | _ => simp_all
  | receive call hc hends =>
    cases hs with
    | asked _ _ _ _ hphase _ hdown => simp [hdown, runsOut_nil, hphase] at hends
    | answered call' hlog hclient hphase hwritten hanswered hfits =>
      obtain rfl : call' = call := by simpa [hclient] using hc
      refine .past ⟨s.log, call', _, [], rfl, hlog, hwritten, hanswered, fun hfit => ?_⟩ hphase (.inl rfl)
      obtain ⟨-, response, hresponse, hdown⟩ := hfits hfit
      exact ⟨response, hresponse, fun hr => by rw [hr.read (hdown hr)]⟩
    | past hpast hphase _ => exact .past (hpast.done _) hphase (.inl rfl)
    | _ => simp_all
  | reset call e hc hclosed hup =>
    cases hs with
    | answered call' hlog hclient hphase hwritten hanswered hfits =>
      obtain rfl : call' = call := by simpa [hclient] using hc
      -- a request that fits is read whole, and nothing is left to reset for
      exact .past ⟨s.log, call', _, [], rfl, hlog, hwritten, hanswered, fun hfit => absurd (hfits hfit).1 hup⟩
        hphase (.inl rfl)
    | past hpast hphase _ => exact .past (hpast.done _) hphase (.inl rfl)
    | _ => simp_all
  | serve h hopen hread => exact serve_stage h hauth hok hs hopen hread

theorem run_stage {d : Daemon} {calls : List Call} (hauth : Fits cq (.authenticate d.token)) (hok : Fits cr .authOk)
    (h : Reachable cq cr (connect d d.token calls) s) : Stage cq cr d.token s := by
  induction h with
  | start => exact connect_stage d calls
  | step _ hstep ih => exact step_stage hauth hok ih hstep

end Stages

/-! ## The calls in order -/

def ClientState.current : ClientState → List Call
  | .waiting call => [call]
  | _ => []

/-- The calls of a session, done or to come. -/
def Session.allCalls (s : Session) : List Call := s.log.map Prod.fst ++ s.client.current ++ s.calls

theorem connectResult_current (r : Except LspError DaemonResponse) : (connectResult r).current = [] := by
  unfold connectResult
  split <;> rfl

theorem step_allCalls {s s' : Session} (h : Step cq cr s s') : s'.allCalls = s.allCalls := by
  cases h with
  | authenticate token bytes hc _ => simp [Session.allCalls, hc, ClientState.current]
  | unwritableToken token hc _ => simp [Session.allCalls, hc, ClientState.current]
  | authenticated hc _ =>
    have hnone := connectResult_current (Socket.readMessage cr s.down).1
    simp only [Session.allCalls, hnone, hc]
    rfl
  | issue call calls bytes hc hcalls _ => simp [Session.allCalls, hc, hcalls, ClientState.current]
  | unwritable call calls hc hcalls _ => simp [Session.allCalls, Session.done, hc, hcalls, ClientState.current]
  | broken call calls bytes e hc hcalls _ _ => simp [Session.allCalls, Session.done, hc, hcalls, ClientState.current]
  | receive call hc _ => simp [Session.allCalls, Session.done, hc, ClientState.current]
  | reset call e hc _ _ => simp [Session.allCalls, Session.done, hc, ClientState.current]
  | serve h _ _ => simp [Session.allCalls]

theorem run_allCalls {d : Daemon} {token : String} {calls : List Call} {s : Session}
    (h : Reachable cq cr (connect d token calls) s) : s.allCalls = calls := by
  induction h with
  | start => rfl
  | step _ hstep ih => exact (step_allCalls hstep).trans ih

/-! ## No dead ends -/

/-- An idle client has done all its calls or takes the next. -/
theorem idle_step {s : Session} (hidle : s.client = .idle) : s.Finished ∨ ∃ s', Step cq cr s s' := by
  cases hcalls : s.calls with
  | nil => exact .inl ⟨hidle, hcalls⟩
  | cons call calls =>
    cases hw : Socket.writeMessage cq call.request with
    | none => exact .inr ⟨_, .unwritable s call calls hidle hcalls hw⟩
    | some bytes => exact .inr ⟨_, .issue s call calls bytes hidle hcalls hw⟩

theorem step_or_finished {token : String} {s : Session} (hauth : Fits cq (.authenticate token))
    (hs : Stage cq cr token s) : s.Finished ∨ ∃ s', Step cq cr s s' := by
  cases hs with
  | connecting _ _ _ hclient _ _ _ =>
    obtain ⟨bytes, hw, -⟩ := hauth.written
    exact .inr ⟨_, .authenticate s token bytes hclient hw⟩
  | authenticating _ _ _ _ hphase hup _ =>
    exact .inr ⟨_, .serve s default (by simp [hphase]) (runsOut_of_written hup)⟩
  | admitted _ _ hclient _ _ hdown =>
    exact .inr ⟨_, .authenticated s hclient fun hends => by simp [runsOut_of_written hdown] at hends⟩
  | idle _ _ hclient _ _ _ => exact idle_step hclient
  | asked call _ _ _ hphase hup _ =>
    exact .inr ⟨_, .serve s default (by simp [hphase]) (runsOut_of_written hup)⟩
  | answered call _ hclient hphase _ _ _ => exact .inr ⟨_, .receive s call hclient fun _ => hphase⟩
  | past _ hphase hclient =>
    rcases hclient with hclient | ⟨call, hclient⟩
    · exact idle_step hclient
    · exact .inr ⟨_, .receive s call hclient fun _ => hphase⟩

theorem finished_stuck {token : String} {s : Session} (hs : Stage cq cr token s) (hdone : s.Finished) :
    ∀ s', ¬Step cq cr s s' := by
  intro s' hstep
  obtain ⟨hidle, hcalls⟩ := hdone
  cases hstep with
  | serve h hopen hread =>
    cases hs with
    | idle _ _ _ _ hup _ => simp [hup, runsOut_nil] at hread
    | past _ hclosed _ => exact hopen hclosed
    | _ => simp_all
  | _ => simp_all

/-- Every session can be taken to its end. -/
theorem exists_finished {d : Daemon} (calls : List Call) (hauth : Fits cq (.authenticate d.token))
    (hok : Fits cr .authOk) : ∃ s, Reachable cq cr (connect d d.token calls) s ∧ s.Finished := by
  suffices h : ∀ n s, s.measure = n → Reachable cq cr (connect d d.token calls) s →
      ∃ s', Reachable cq cr (connect d d.token calls) s' ∧ s'.Finished from h _ _ rfl .start
  intro n
  induction n using Nat.strong_induction_on with
  | _ n ih =>
    intro s hn hreach
    rcases step_or_finished hauth (run_stage hauth hok hreach) with hdone | ⟨s', hstep⟩
    · exact ⟨s, hreach, hdone⟩
    · exact ih s'.measure (hn ▸ step_measure hstep) s' rfl (hreach.step hstep)

end Runs

/-! ## A table of messages -/

/-- The messages of a table, each with its JSON. -/
def tableCodec {μ : Type} [DecidableEq μ] (table : List (μ × String))
    (h : ∀ e ∈ table, ∀ e' ∈ table, str e.2 = str e'.2 → e.1 = e'.1) : Codec μ where
  encode m := (table.find? fun e => e.1 = m).map fun e => str e.2
  decode json := (table.find? fun e => str e.2 = json).map (·.1)
  roundTrip m json hencode := by
    obtain ⟨e, he, rfl⟩ := Option.map_eq_some_iff.mp hencode
    have hmem := List.mem_of_find?_eq_some he
    have hm : e.1 = m := by simpa using List.find?_some he
    obtain ⟨e', he'⟩ : ∃ e', table.find? (fun e'' => str e''.2 = str e.2) = some e' :=
      Option.isSome_iff_exists.mp (List.find?_isSome.mpr ⟨e, hmem, by simp⟩)
    have heq : str e'.2 = str e.2 := by simpa using List.find?_some he'
    rw [he', Option.map_some, h e' (List.mem_of_find?_eq_some he') e hmem heq, hm]

def requests : Codec DaemonRequest :=
  tableCodec [(.authenticate "k", "\x7b\"Authenticate\":\x7b\"token\":\"k\"\x7d\x7d"), (.status, "\"Status\"")]
    (by decide)

def responses : Codec DaemonResponse :=
  tableCodec [(.authOk, "\"AuthOk\""),
    (.status [] 0, "\x7b\"Status\":\x7b\"servers\":[],\"uptime_secs\":0\x7d\x7d")] (by decide)

def freshDaemon : Daemon := Daemon.new 1000 0 [.rootDir] "k"

/-! ## Who is served -/

section Served

variable {cq : Codec DaemonRequest} {cr : Codec DaemonResponse}

theorem finished_allCalls {d : Daemon} {token : String} {calls : List Call} {s : Session}
    (h : Reachable cq cr (connect d token calls) s) (hdone : s.Finished) : s.log.map Prod.fst = calls := by
  have hall := run_allCalls h
  simpa [Session.allCalls, hdone.1, hdone.2, ClientState.current] using hall

variable (cq) in
/-- No call the daemon can serve comes after a call that is written. -/
def OneWritten (calls : List Call) : Prop :=
  ∀ i, CanServe cq calls i → ∀ j < i, ∀ call, calls[j]? = some call → Socket.writeMessage cq call.request = none

theorem Unwritten.get {log : List (Call × Except LspError DaemonResponse)} (h : Unwritten cq log) {i : Nat}
    {call : Call} (hi : (log.map Prod.fst)[i]? = some call) : Socket.writeMessage cq call.request = none := by
  obtain ⟨e, he, rfl⟩ := List.mem_map.mp (List.mem_of_getElem? hi)
  exact h e he

/-- A call that is answered has no written call before it. -/
theorem answered_first {token : String} {s : Session} (hs : Stage cq cr token s) (hdone : s.Finished) {a : Answer}
    (ha : a ∈ s.answered) : ∀ j < a.call, ∀ call, (s.log.map Prod.fst)[j]? = some call →
      Socket.writeMessage cq call.request = none := by
  cases hs with
  | past hpast _ _ =>
    obtain ⟨before, first, outcome, later, hlog, hbefore, _, hanswered, _⟩ := hpast
    intro j hj call hcall
    rw [hanswered a ha] at hj
    rw [hlog, List.map_append, List.getElem?_append_left (by simpa using hj)] at hcall
    exact hbefore.get hcall
  | _ => simp_all [Session.Finished]

/-- The first call that is written is served. -/
theorem first_served {token : String} {s : Session} (hs : Stage cq cr token s) (hdone : s.Finished) {i : Nat}
    {call : Call} (hcall : (s.log.map Prod.fst)[i]? = some call) (hfits : Fits cq call.request)
    (hfirst : ∀ j < i, ∀ call, (s.log.map Prod.fst)[j]? = some call → Socket.writeMessage cq call.request = none)
    (hresponse : ∀ a ∈ s.answered, a.call = i → Fits cr a.response) : s.Gets i call := by
  obtain ⟨bytes, hw, -⟩ := hfits.written
  cases hs with
  | idle hlog _ _ _ _ _ => simp [hlog.get hcall] at hw
  | past hpast _ _ =>
    obtain ⟨before, first, outcome, later, hlog, hbefore, hwritten, hanswered, hgets⟩ := hpast
    rw [hlog, List.map_append, List.map_cons] at hcall hfirst
    -- `i` is where the first written call is
    rcases Nat.lt_trichotomy i before.length with hi | rfl | hi
    · rw [List.getElem?_append_left (by simpa using hi)] at hcall
      simp [hbefore.get hcall] at hw
    · obtain rfl : first = call := by simpa using hcall
      obtain ⟨response, hmem, hout⟩ := hgets hfits
      obtain rfl := hout (hresponse _ hmem rfl)
      exact ⟨response, hmem, by simp [hlog]⟩
    · exact absurd (hfirst before.length hi first (by simp)) hwritten
  | _ => simp_all [Session.Finished]

/-- For every daemon a client can connect to and every list of calls: in every run to
    its end all the calls the daemon can serve get its answers, if and only if none of
    them comes after a call that is written. -/
theorem all_served_iff {d : Daemon} {calls : List Call} (hauth : Fits cq (.authenticate d.token))
    (hok : Fits cr .authOk) :
    (∀ s, Reachable cq cr (connect d d.token calls) s → (∀ s', ¬Step cq cr s s') →
      s.Finished ∧ AllServed cq cr calls s) ↔ OneWritten cq calls := by
  constructor
  · intro h i hserve
    obtain ⟨s, hreach, hdone⟩ := exists_finished calls hauth hok
    have hstage := run_stage hauth hok hreach
    have hlog := finished_allCalls hreach hdone
    obtain ⟨-, hserved⟩ := h s hreach (finished_stuck hstage hdone)
    obtain ⟨⟨call, hcall, hfits⟩, -⟩ := id hserve
    -- the daemon has answered it, if only with what does not fit
    have hanswer : ∃ a ∈ s.answered, a.call = i := by
      by_contra hnone
      obtain ⟨response, hmem, -⟩ := hserved i call hserve hcall fun a ha hi => absurd ⟨a, ha, hi⟩ hnone
      exact hnone ⟨_, hmem, rfl⟩
    obtain ⟨a, ha, rfl⟩ := hanswer
    exact hlog ▸ answered_first hstage hdone ha
  · intro hone s hreach hstuck
    have hstage := run_stage hauth hok hreach
    have hdone : s.Finished := (step_or_finished hauth hstage).resolve_right fun ⟨s', hs'⟩ => hstuck s' hs'
    have hlog := finished_allCalls hreach hdone
    refine ⟨hdone, fun i call hserve hcall hresponse => ?_⟩
    obtain ⟨⟨call', hcall', hfits⟩, -⟩ := id hserve
    obtain rfl : call' = call := Option.some.inj (hcall'.symm.trans hcall)
    exact first_served hstage hdone (hlog ▸ hcall) hfits (hlog ▸ hone i hserve) hresponse

end Served

theorem all_served_iff_status :
    (∀ s, Reachable requests responses (connect freshDaemon freshDaemon.token [.status]) s →
      (∀ s', ¬Step requests responses s s') → s.Finished ∧ AllServed requests responses [.status] s) ↔
    OneWritten requests [.status] :=
  all_served_iff ⟨_, rfl, by decide⟩ ⟨_, rfl, by decide⟩

/-! ## Two calls on one connection -/

theorem status_fits : Fits requests .status := ⟨str "\"Status\"", rfl, by decide⟩

/-- The run in which each side takes its step as soon as it can. -/
theorem two_calls_run :
    ∃ s, Reachable requests responses (connect freshDaemon "k" [.status, .status]) s ∧ s.Finished ∧
      s.log = [(.status, .ok (.status [] 0)), (.status, .error (.connectionFailed .closed))] ∧
      s.answered = [⟨0, .status, .status [] 0⟩] := by
  have h0 : Reachable requests responses (connect freshDaemon "k" [.status, .status]) _ := .start
  have h1 := h0.step (.authenticate _ "k" _ rfl rfl)
  have h2 := h1.step (.serve _ default (by decide) (by decide))
  have h3 := h2.step (.authenticated _ rfl (by decide))
  have h4 := h3.step (.issue _ .status [.status] _ (by decide) (by decide) rfl)
  have h5 := h4.step (.serve _ default (by decide) (by decide))
  have h6 := h5.step (.receive _ .status rfl (by decide))
  have h7 := h6.step (.issue _ .status [] _ rfl rfl rfl)
  have h8 := h7.step (.receive _ .status rfl (by decide))
  exact ⟨_, h8, ⟨by decide, by decide⟩, by decide, by decide⟩

/-- Both calls can be served; the first is, the second finds the end of the stream. -/
theorem a_second_call_finds_the_connection_closed :
    ∃ s, Reachable requests responses (connect freshDaemon "k" [.status, .status]) s ∧ s.Finished ∧
      s.log = [(.status, .ok (.status [] 0)), (.status, .error (.connectionFailed .closed))] ∧
      s.answered = [⟨0, .status, .status [] 0⟩] ∧ ¬AllServed requests responses [.status, .status] s := by
  obtain ⟨s, hreach, hdone, hlog, hanswered⟩ := two_calls_run
  refine ⟨s, hreach, hdone, hlog, hanswered, fun hall => ?_⟩
  have hserve : CanServe requests [.status, .status] 1 := ⟨⟨.status, rfl, status_fits⟩, by decide⟩
  obtain ⟨response, -, hgets⟩ := hall 1 .status hserve rfl (by simp [hanswered])
  simp [hlog] at hgets

end CodeQuery.Lsp.Client
