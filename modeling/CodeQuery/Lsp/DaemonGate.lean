/-
  CodeQuery.Lsp.DaemonGate — what a connection that does not authenticate can do
  (see `CodeQuery.Lsp.Daemon`).

  A connection authenticates when its first message is an Authenticate request with the
  daemon's own token; the token never changes (`step_token`). Over any turns of the
  accept loop, a connection that does not authenticate leaves the daemon as it was,
  stops nothing and is sent no answer but the refusal, and the daemon goes on as if
  nobody had connected (`unauthenticated_changes_nothing`).
-/

import CodeQuery.Lsp.Daemon

namespace CodeQuery.Lsp.Daemon

open CodeQuery.Core CodeQuery.Text CodeQuery.Lsp.Socket

/-! ## The token -/

@[simp] theorem evictIdleServers_token (h : Host) (d : Daemon) : (evictIdleServers h d).token = d.token := rfl

@[simp] theorem putServer_token (d : Daemon) (key : Path × Language) (server : LspServer) :
    (putServer d key server).token = d.token := by
  unfold putServer
  split <;> rfl

@[simp] theorem getOrStartServer_token (h : Host) (d : Daemon) (project : Path) (language : Language) :
    (getOrStartServer h d project language).2.token = d.token := by
  simp only [getOrStartServer]
  split
  · split
    · rfl
    · split
      · rfl
      · split <;> rfl
  · split
    · rfl
    · split <;> rfl

theorem handleQuery_token (h : Host) (d : Daemon) (project : Path) (language operation : String) (file : Path)
    (line column : Nat) : (handleQuery h d project language operation file line column).2.token = d.token := by
  unfold handleQuery
  split
  · rfl
  · rename_i lang _
    have htoken := getOrStartServer_token h d project lang
    split
    · rename_i heq
      rwa [heq] at htoken
    · rename_i heq
      rw [heq] at htoken
      simp only
      split
      · exact htoken
      · simpa using htoken

@[simp] theorem handleRequest_token (h : Host) (d : Daemon) (r : DaemonRequest) :
    (handleRequest h d r).2.2.token = d.token := by
  cases r with
  | query project language operation file line column symbol => exact handleQuery_token ..
  | status => rfl
  | shutdown => rfl
  | authenticate token => rfl

@[simp] theorem handleConnection_token (c : Codec DaemonRequest) (h : Host) (d : Daemon) (incoming : Str) :
    (handleConnection c h d incoming).2.2.token = d.token := by
  unfold handleConnection
  split
  · rfl
  · split
    · split
      · rfl
      · simp
    · rfl

/-! ## One connection -/

section Gate

variable (c : Codec DaemonRequest)

/-- The first message is an Authenticate request with the token. -/
def authenticates (token : String) (incoming : Str) : Bool :=
  match (Socket.readMessage c incoming).1 with
  | .ok request => authOk token request
  | .error _ => false

variable {c}

/-- What a connection that does not authenticate comes to. -/
theorem handleConnection_refused {h : Host} {d : Daemon} {incoming : Str}
    (hno : authenticates c d.token incoming = false) :
    ∃ responses, handleConnection c h d incoming = (responses, false, d) ∧
      ∀ r ∈ responses, r = .error "authentication failed" := by
  unfold authenticates at hno
  unfold handleConnection
  cases hread : Socket.readMessage c incoming with
  | mk result rest =>
    rw [hread] at hno
    cases result with
    | error e => exact ⟨[], rfl, by simp⟩
    | ok request =>
      simp only at hno
      simp only [hno, Bool.false_eq_true, if_false]
      exact ⟨_, rfl, by simp⟩

/-! ## Runs -/

theorem step_token (s : LoopState) (t : Turn) : (step c s t).daemon.token = s.daemon.token := by
  unfold step
  split
  · rfl
  · split
    · rfl
    · cases t.accepted <;> simp

/-- What the loop notes of a connection is what its handler did. -/
def Handled (c : Codec DaemonRequest) (token : String) (e : Served) : Prop :=
  e.before.token = token ∧ ∃ h, handleConnection c h e.before e.incoming = (e.responses, e.shouldStop, e.after)

theorem step_handled {token : String} {s : LoopState} (t : Turn) (htoken : s.daemon.token = token)
    (hs : ∀ e ∈ s.served, Handled c token e) : ∀ e ∈ (step c s t).served, Handled c token e := by
  unfold step
  split
  · exact hs
  · split
    · exact hs
    · cases t.accepted with
      | connection host incoming =>
        intro e he
        rcases List.mem_append.mp he with he | he
        · exact hs e he
        · obtain rfl := List.mem_singleton.mp he
          exact ⟨htoken, host, rfl⟩
      | wouldBlock => exact hs
      | failed => exact hs

theorem run_handled {token : String} (turns : List Turn) {s : LoopState} (htoken : s.daemon.token = token)
    (hs : ∀ e ∈ s.served, Handled c token e) : ∀ e ∈ (turns.foldl (step c) s).served, Handled c token e := by
  induction turns generalizing s with
  | nil => exact hs
  | cons t turns ih => exact ih ((step_token s t).trans htoken) (step_handled t htoken hs)

/-! ## Nobody connected -/

/-- A turn in which a connection that does not authenticate never came. -/
def silence (c : Codec DaemonRequest) (token : String) (t : Turn) : Turn :=
  match t.accepted with
  | .connection _ incoming => if authenticates c token incoming then t else { t with accepted := .wouldBlock }
  | _ => t

/-- The state without what is noted of connections that do not authenticate. -/
def LoopState.admitted (c : Codec DaemonRequest) (token : String) (s : LoopState) : LoopState :=
  { s with served := s.served.filter fun e => authenticates c token e.incoming }

theorem silence_shutdownFlag (token : String) (t : Turn) : (silence c token t).shutdownFlag = t.shutdownFlag := by
  unfold silence
  split
  · split <;> rfl
  · rfl

theorem step_silence {token : String} {s : LoopState} (t : Turn) (htoken : s.daemon.token = token) :
    step c (s.admitted c token) (silence c token t) = (step c s t).admitted c token := by
  by_cases hstopped : s.stopped
  · simp only [step, LoopState.admitted, hstopped, if_true]
  by_cases hflag : t.shutdownFlag
  · simp only [step, LoopState.admitted, hstopped, silence_shutdownFlag, hflag, if_true, if_false, Bool.false_eq_true]
  obtain ⟨shutdownFlag, host, accepted⟩ := t
  obtain rfl : shutdownFlag = false := by simpa using hflag
  cases accepted with
  | connection h incoming =>
    by_cases hauth : authenticates c token incoming
    · simp [silence, step, LoopState.admitted, hstopped, hauth]
    · -- the handler returns the daemon it was given: the turn with nobody there
      have hno : authenticates c (evictIdleServers host s.daemon).token incoming = false := by
        simpa [htoken] using hauth
      obtain ⟨responses, hrefused, -⟩ := handleConnection_refused (h := h) hno
      simp [silence, step, LoopState.admitted, hstopped, hauth, hrefused]
  | wouldBlock => simp [silence, step, LoopState.admitted, hstopped]
  | failed => simp [silence, step, LoopState.admitted, hstopped]

theorem run_silence {token : String} (turns : List Turn) {s : LoopState} (htoken : s.daemon.token = token) :
    (turns.map (silence c token)).foldl (step c) (s.admitted c token) =
      (turns.foldl (step c) s).admitted c token := by
  induction turns generalizing s with
  | nil => rfl
  | cons t turns ih =>
    rw [List.map_cons, List.foldl_cons, step_silence t htoken]
    exact ih ((step_token s t).trans htoken)

end Gate

/-- For any turns of the accept loop, a connection whose first message is not an
    Authenticate request with the daemon's token changes nothing of the daemon, is sent
    nothing but the refusal and does not stop it; and the run is, but for what is noted of
    such connections, the run in which they never came. -/
theorem unauthenticated_changes_nothing (c : Codec DaemonRequest) (d : Daemon) (turns : List Turn) :
    (∀ e ∈ (acceptLoop c d turns).served, authenticates c d.token e.incoming = false →
      e.after = e.before ∧ e.shouldStop = false ∧ ∀ r ∈ e.responses, r = .error "authentication failed") ∧
    acceptLoop c d (turns.map (silence c d.token)) = (acceptLoop c d turns).admitted c d.token := by
  refine ⟨fun e he hno => ?_, run_silence turns (s := ⟨d, false, []⟩) rfl⟩
  obtain ⟨htoken, h, hdone⟩ := run_handled (c := c) turns (s := ⟨d, false, []⟩) rfl (by simp) e he
  obtain ⟨responses, hrefused, hresponses⟩ := handleConnection_refused (h := h) (htoken ▸ hno)
  obtain ⟨rfl, hstop, hafter⟩ : responses = e.responses ∧ false = e.shouldStop ∧ e.before = e.after := by
    simpa using hrefused.symm.trans hdone
  exact ⟨hafter.symm, hstop.symm, hresponses⟩

end CodeQuery.Lsp.Daemon
