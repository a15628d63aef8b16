/-
  CodeQuery.Lsp.Readiness — waiting until a language server is ready
  (`codequery-lsp/src/server.rs`, `wait_for_ready`).

  The loop asks the clock and the transport in turn, so it is a machine that is given
  their answers one at a time (`step`): a clock reading where it reads the clock, what
  `try_read_message` returns where it calls that. A run is the loop before a clock and a
  transport with answers of their own (`waitForReady`).

  Proved, after any number of steps (`wait_tracks_progress`): of the messages the transport
  gave so far, the active tokens are those begun and not ended since; each create request
  is answered once, with its id; and the loop returns, if not for the deadline or an error
  that the transport gave, when progress was seen and every token begun has ended, or when
  nothing of progress came within the grace period. Until it returns, it polls the transport
  after at most three readings of the clock.
-/

import CodeQuery.Lsp.Protocol
import Mathlib.Data.Finset.Basic

namespace CodeQuery.Lsp

/-- `Value::get`: the last member of a name counts. -/
def Json.get (j : Json) (name : String) : Option Json :=
  match j with
  | .obj members => (Json.membersOf name members).getLast?
  | _ => none

namespace Readiness

/-! ## Messages -/

def methodOf (json : Json) : String := ((json.get "method").bind Json.asString).getD ""

def kindOf (params : Json) : String := (((params.get "value").bind (·.get "kind")).bind Json.asString).getD ""

/-- The answer to a create request. -/
def createResponse (id : Json) : Json := .obj [("jsonrpc", .str "2.0"), ("id", id), ("result", .null)]

section Wait

variable (parse : String → Option Json) (render : Json → String)

def tokenOf (params : Json) : String := ((params.get "token").map render).getD ""

/-! ## The machine -/

inductive Return where
  | timedOut
  | noProgress
  /-- Every token has ended, and no new one began in the drain window. -/
  | settled
  | failed (e : LspError)
  deriving DecidableEq, Repr

/-- What the loop does next. -/
inductive Point where
  /-- Read the clock, against the deadline. -/
  | top
  | poll (timeout : Nat)
  /-- Read the clock, against the end of the grace period. -/
  | grace
  /-- Read the clock, to begin the drain window. -/
  | drainStart
  /-- Read the clock, against the end of the drain window. -/
  | drainTest (drainDeadline : Nat) (newProgress : Bool)
  /-- Read the clock, against the deadline. -/
  | drainLimit (drainDeadline : Nat) (newProgress : Bool)
  | drainPoll (drainDeadline : Nat) (newProgress : Bool)
  | returned (r : Return)
  deriving DecidableEq, Repr

inductive Answer where
  /-- `Instant::now()`, in milliseconds. -/
  | now (t : Nat)
  /-- `try_read_message`. -/
  | read (r : Except LspError (Option String))

structure Wait where
  point : Point
  seenProgress : Bool
  progressActive : Finset String
  /-- What was handed to `write_raw`. -/
  written : List String
  /-- Ghost: the messages read. -/
  read : List String
  /-- Ghost: the last reading of the clock. -/
  clock : Nat

def Wait.start : Wait := ⟨.top, false, ∅, [], [], 0⟩

/-- The response to a create request is written, whatever comes of it. -/
def respond (json : Json) (s : Wait) : Wait :=
  { s with written := s.written ++ ((json.get "id").map fun id => render (createResponse id)).toList }

/-- A message of the main loop. -/
def handle (msg : String) (s : Wait) : Wait :=
  match parse msg with
  | none => s
  | some json =>
    match methodOf json with
    | "$/progress" =>
      let s := { s with seenProgress := true }
      match json.get "params" with
      | none => s
      | some params =>
        match kindOf params with
        | "begin" => { s with progressActive := insert (tokenOf render params) s.progressActive }
        | "end" => { s with progressActive := s.progressActive.erase (tokenOf render params) }
        | _ => s
    | "window/workDoneProgress/create" => respond render json { s with seenProgress := true }
    | _ => s

/-- The drain loop is left: for the main loop when there is new progress. -/
def leaveDrain (newProgress : Bool) : Point := if newProgress then .top else .returned .settled

/-- A message of the drain loop; only a token that begins breaks it. -/
def drain (drainDeadline : Nat) (newProgress : Bool) (msg : String) (s : Wait) : Wait :=
  let next := { s with point := .drainTest drainDeadline newProgress }
  match parse msg with
  | none => next
  | some json =>
    match methodOf json with
    | "$/progress" =>
      match json.get "params" with
      | none => next
      | some params =>
        if kindOf params = "begin" then
          { s with point := leaveDrain true, progressActive := insert (tokenOf render params) s.progressActive }
        else next
    | "window/workDoneProgress/create" => respond render json { s with point := .drainTest drainDeadline true }
    | _ => next

/-- Nothing came within the poll timeout. -/
def idle (s : Wait) : Point :=
  if s.seenProgress then if s.progressActive = ∅ then .drainStart else .top else .grace

variable (deadline graceDeadline : Nat)

/-- An answer that was not asked for changes nothing. -/
def step (s : Wait) : Answer → Wait
  | .now t =>
    let s' := { s with clock := t }
    match s.point with
    | .top => { s' with point := if deadline - t = 0 then .returned .timedOut else .poll (min (deadline - t) 200) }
    | .grace => { s' with point := if graceDeadline ≤ t then .returned .noProgress else .top }
    | .drainStart => { s' with point := .drainTest (t + 500) false }
    | .drainTest d new => { s' with point := if t < d then .drainLimit d new else leaveDrain new }
    | .drainLimit d new => { s' with point := if t < deadline then .drainPoll d new else leaveDrain new }
    | .poll _ | .drainPoll _ _ | .returned _ => s
  | .read r =>
    match s.point, r with
    | .poll _, .ok (some msg) => { handle parse render msg s with point := .top, read := s.read ++ [msg] }
    | .poll _, .ok none => { s with point := idle s }
    | .poll _, .error e => { s with point := .returned (.failed e) }
    | .drainPoll d new, .ok (some msg) => { drain parse render d new msg s with read := s.read ++ [msg] }
    | .drainPoll d new, .ok none => { s with point := .drainTest d new }
    | .drainPoll _ new, .error _ => { s with point := leaveDrain new }
    | _, _ => s

/-- What the loop finds outside: the readings of the clock, and what each call of
    `try_read_message` returns. -/
structure Outside where
  clock : Nat → Nat
  transport : Nat → Except LspError (Option String)

structure Loop where
  wait : Wait
  /-- The readings of the clock so far. -/
  readings : Nat
  /-- The calls of `try_read_message` so far. -/
  polls : Nat

variable (out : Outside)

/-- The loop asks for the next answer. -/
def Loop.next (l : Loop) : Loop :=
  match l.wait.point with
  | .returned _ => l
  | .poll _ | .drainPoll _ _ =>
    ⟨step parse render deadline graceDeadline l.wait (.read (out.transport l.polls)), l.readings, l.polls + 1⟩
  | .top | .grace | .drainStart | .drainTest _ _ | .drainLimit _ _ =>
    ⟨step parse render deadline graceDeadline l.wait (.now (out.clock l.readings)), l.readings + 1, l.polls⟩

/-- `wait_for_ready`, after a number of answers. -/
def waitForReady : Nat → Loop
  | 0 => ⟨Wait.start, 0, 0⟩
  | n + 1 => (waitForReady n).next parse render deadline graceDeadline out

/-- The message of a poll. -/
def Outside.message (i : Nat) : Option String :=
  match out.transport i with
  | .ok msg => msg
  | .error _ => none

/-- The messages of the first polls. -/
def Outside.heard (polls : Nat) : List String := (List.range polls).filterMap out.message

end Wait

/-! ## What the messages say -/

section History

variable (parse : String → Option Json) (render : Json → String)

/-- The token and the kind of a progress notification. -/
def progressNote (msg : String) : Option (String × String) :=
  match parse msg with
  | none => none
  | some json =>
    if methodOf json = "$/progress" then (json.get "params").map fun params => (tokenOf render params, kindOf params)
    else none

def Begins (token msg : String) : Prop := progressNote parse render msg = some (token, "begin")

def Ends (token msg : String) : Prop := progressNote parse render msg = some (token, "end")

/-- The token has begun and, since, not ended. -/
def Running (history : List String) (token : String) : Prop :=
  ∃ before msg after, history = before ++ msg :: after ∧ Begins parse render token msg ∧
    ∀ m ∈ after, ¬ Ends parse render token m

/-- Every token that has begun has ended since. -/
def AllEnded (history : List String) : Prop :=
  ∀ before msg after token, history = before ++ msg :: after → Begins parse render token msg →
    ∃ m ∈ after, Ends parse render token m

/-- A progress notification, or a create request. -/
def OfProgress (msg : String) : Prop :=
  ∃ json, parse msg = some json ∧
    (methodOf json = "$/progress" ∨ methodOf json = "window/workDoneProgress/create")

/-- The id of a create request. -/
def createId (msg : String) : Option Json :=
  match parse msg with
  | none => none
  | some json => if methodOf json = "window/workDoneProgress/create" then json.get "id" else none

def responses (history : List String) : List String :=
  (history.filterMap (createId parse)).map fun id => render (createResponse id)

end History

section Proofs

variable {parse : String → Option Json} {render : Json → String}

theorem running_snoc {history : List String} {msg token : String} :
    Running parse render (history ++ [msg]) token ↔
      Begins parse render token msg ∨ Running parse render history token ∧ ¬ Ends parse render token msg := by
  refine ⟨fun h => ?_, fun h => ?_⟩
  · obtain ⟨before, m, after, hsplit, hbegins, hnone⟩ := h
    rcases List.eq_nil_or_concat after with rfl | ⟨after, last, rfl⟩
    · have hlast : msg = m := by simpa using congrArg List.getLast? hsplit
      exact .inl (hlast ▸ hbegins)
    · rw [List.concat_eq_append] at hsplit hnone
      obtain ⟨rfl, hlast⟩ := List.append_inj' (hsplit.trans (by simp : before ++ m :: (after ++ [last]) =
        (before ++ m :: after) ++ [last])) rfl
      obtain rfl : msg = last := by simpa using hlast
      exact .inr ⟨⟨before, m, after, rfl, hbegins, fun x hx => hnone x (by simp [hx])⟩, hnone msg (by simp)⟩
  · rcases h with hbegins | ⟨⟨before, m, after, rfl, hbegins, hnone⟩, hends⟩
    · exact ⟨history, msg, [], rfl, hbegins, by simp⟩
    · refine ⟨before, m, after ++ [msg], by simp, hbegins, ?_⟩
      intro x hx
      rcases List.mem_append.mp hx with hx | hx
      · exact hnone x hx
      · rw [List.mem_singleton.mp hx]
        exact hends

theorem allEnded_iff {history : List String} :
    AllEnded parse render history ↔ ∀ token, ¬ Running parse render history token := by
  refine ⟨fun h token hrun => ?_, fun h before msg after token hsplit hbegins => ?_⟩
  · obtain ⟨before, msg, after, hsplit, hbegins, hnone⟩ := hrun
    obtain ⟨m, hm, hends⟩ := h before msg after token hsplit hbegins
    exact hnone m hm hends
  · by_contra hnone
    exact h token ⟨before, msg, after, hsplit, hbegins, fun m hm he => hnone ⟨m, hm, he⟩⟩

theorem responses_snoc (history : List String) (msg : String) :
    responses parse render (history ++ [msg]) =
      responses parse render history ++ ((createId parse msg).map fun id => render (createResponse id)).toList := by
  rw [responses, List.filterMap_append, List.map_append]
  cases h : createId parse msg with
  | none => simp [responses, h]
  | some id => simp [responses, h]

/-! ## What a message does -/

/-- The books after a message: what it begins is active, what it ends is not, and a
    create request is answered. -/
structure Books (parse : String → Option Json) (render : Json → String) (s s' : Wait) (msg : String) : Prop where
  active : ∀ token, token ∈ s'.progressActive ↔
    Begins parse render token msg ∨ token ∈ s.progressActive ∧ ¬ Ends parse render token msg
  seen : s'.seenProgress = true ↔ s.seenProgress = true ∨ OfProgress parse msg
  written : s'.written = s.written ++ ((createId parse msg).map fun id => render (createResponse id)).toList

theorem books_none {s : Wait} {msg : String} (hnote : progressNote parse render msg = none)
    (hcreate : createId parse msg = none) (hof : ¬ OfProgress parse msg) {s' : Wait}
    (hactive : s'.progressActive = s.progressActive) (hseen : s'.seenProgress = s.seenProgress)
    (hwritten : s'.written = s.written) : Books parse render s s' msg where
  active token := by simp [hactive, Begins, Ends, hnote]
  seen := by simp [hseen, hof]
  written := by simp [hwritten, hcreate]

theorem ofProgress_iff {msg : String} {json : Json} (h : parse msg = some json) :
    OfProgress parse msg ↔
      methodOf json = "$/progress" ∨ methodOf json = "window/workDoneProgress/create" := by
  simp [OfProgress, h]

section Messages

variable {s s' : Wait} {msg : String} {json : Json}

/-- A message that is no text of JSON. -/
theorem books_unparsed (hparse : parse msg = none) (hactive : s'.progressActive = s.progressActive)
    (hseen : s'.seenProgress = s.seenProgress) (hwritten : s'.written = s.written) : Books parse render s s' msg :=
  books_none (by simp [progressNote, hparse]) (by simp [createId, hparse]) (by simp [OfProgress, hparse]) hactive hseen
    hwritten

/-- A message of another method. -/
theorem books_other (hparse : parse msg = some json) (hprogress : methodOf json ≠ "$/progress")
    (hcreate : methodOf json ≠ "window/workDoneProgress/create") (hactive : s'.progressActive = s.progressActive)
    (hseen : s'.seenProgress = s.seenProgress) (hwritten : s'.written = s.written) : Books parse render s s' msg :=
  books_none (by simp [progressNote, hparse, hprogress]) (by simp [createId, hparse, hcreate])
    (by simp [ofProgress_iff hparse, hprogress, hcreate]) hactive hseen hwritten

/-- A create request, which is answered. -/
theorem books_create (hparse : parse msg = some json) (hmethod : methodOf json = "window/workDoneProgress/create")
    (hactive : s'.progressActive = s.progressActive) (hseen : s'.seenProgress = true)
    (hwritten : s'.written = s.written ++ ((json.get "id").map fun id => render (createResponse id)).toList) :
    Books parse render s s' msg where
  active token := by
    have hnote : progressNote parse render msg = none := by simp [progressNote, hparse, hmethod]
    simp [hactive, Begins, Ends, hnote]
  seen := by
    have hof : OfProgress parse msg := (ofProgress_iff hparse).mpr (.inr hmethod)
    simp [hseen, hof]
  written := by
    have hid : createId parse msg = json.get "id" := by simp [createId, hparse, hmethod]
    rw [hwritten, hid]

/-- A progress notification, with what it makes of the tokens. -/
theorem books_progress (hparse : parse msg = some json) (hmethod : methodOf json = "$/progress")
    (hactive : ∀ token, token ∈ s'.progressActive ↔
      Begins parse render token msg ∨ token ∈ s.progressActive ∧ ¬ Ends parse render token msg)
    (hseen : s'.seenProgress = true) (hwritten : s'.written = s.written) : Books parse render s s' msg where
  active := hactive
  seen := by
    have hof : OfProgress parse msg := (ofProgress_iff hparse).mpr (.inl hmethod)
    simp [hseen, hof]
  written := by
    have hid : createId parse msg = none := by simp [createId, hparse, hmethod]
    simp [hwritten, hid]

theorem progressNote_eq (hparse : parse msg = some json) (hmethod : methodOf json = "$/progress") :
    progressNote parse render msg = (json.get "params").map fun params => (tokenOf render params, kindOf params) := by
  simp [progressNote, hparse, hmethod]

end Messages

theorem handle_books (msg : String) (s : Wait) : Books parse render s (handle parse render msg s) msg := by
  unfold handle
  cases hparse : parse msg with
  | none => exact books_unparsed hparse rfl rfl rfl
  | some json =>
    simp only
    split
    · rename_i hmethod
      have hnote := @progressNote_eq parse render msg json hparse hmethod
      cases hparams : json.get "params" with
      | none =>
        rw [hparams, Option.map_none] at hnote
        exact books_progress hparse hmethod (fun token => by simp [Begins, Ends, hnote]) rfl rfl
      | some params =>
        rw [hparams, Option.map_some] at hnote
        simp only
        split
        · rename_i hkind
          refine books_progress hparse hmethod (fun token => ?_) rfl rfl
          simp [Begins, Ends, hnote, hkind, eq_comm]
        · rename_i hkind
          refine books_progress hparse hmethod (fun token => ?_) rfl rfl
          simp [Begins, Ends, hnote, hkind, eq_comm, and_comm]
        · rename_i hbegin hend
          have hbegin : kindOf params ≠ "begin" := hbegin
          have hend : kindOf params ≠ "end" := hend
          refine books_progress hparse hmethod (fun token => ?_) rfl rfl
          simp [Begins, Ends, hnote, hbegin, hend]
    · rename_i hmethod
      exact books_create hparse hmethod rfl rfl rfl
    · rename_i hprogress hcreate
      exact books_other hparse hprogress hcreate rfl rfl rfl

/-- In the drain window nothing is active, so an end takes nothing away. -/
theorem drain_books (d : Nat) (new : Bool) (msg : String) {s : Wait} (hseen : s.seenProgress = true)
    (hactive : s.progressActive = ∅) : Books parse render s (drain parse render d new msg s) msg := by
  unfold drain
  cases hparse : parse msg with
  | none => exact books_unparsed hparse rfl rfl rfl
  | some json =>
    simp only
    split
    · rename_i hmethod
      have hnote := @progressNote_eq parse render msg json hparse hmethod
      cases hparams : json.get "params" with
      | none =>
        rw [hparams, Option.map_none] at hnote
        exact books_progress hparse hmethod (fun token => by simp [Begins, Ends, hnote]) hseen rfl
      | some params =>
        rw [hparams, Option.map_some] at hnote
        simp only
        by_cases hbegin : kindOf params = "begin"
        · rw [if_pos hbegin]
          refine books_progress hparse hmethod (fun token => ?_) hseen rfl
          simp [Begins, hnote, hbegin, hactive, eq_comm]
        · rw [if_neg hbegin]
          refine books_progress hparse hmethod (fun token => ?_) hseen rfl
          simp [Begins, hnote, hbegin, hactive]
    · rename_i hmethod
      exact books_create hparse hmethod rfl hseen rfl
    · rename_i hprogress hcreate
      exact books_other hparse hprogress hcreate rfl rfl rfl

/-- The drain loop goes on with nothing active, or is left for the main loop. -/
theorem drain_point (d : Nat) (new : Bool) (msg : String) (s : Wait) :
    (∃ new', (drain parse render d new msg s).point = .drainTest d new' ∧
      (drain parse render d new msg s).progressActive = s.progressActive) ∨
    (drain parse render d new msg s).point = .top := by
  unfold drain
  cases parse msg with
  | none => exact .inl ⟨new, rfl, rfl⟩
  | some json =>
    simp only
    split
    · cases json.get "params" with
      | none => exact .inl ⟨new, rfl, rfl⟩
      | some params =>
        simp only
        split
        · exact .inr rfl
        · exact .inl ⟨new, rfl, rfl⟩
    · exact .inl ⟨true, rfl, rfl⟩
    · exact .inl ⟨new, rfl, rfl⟩

/-! ## Runs -/

/-- What is known where the loop stands. -/
def At (deadline graceDeadline : Nat) (s : Wait) : Prop :=
  match s.point with
  | .grace => s.seenProgress = false
  | .drainStart | .drainTest _ _ | .drainLimit _ _ | .drainPoll _ _ | .returned .settled =>
    s.seenProgress = true ∧ s.progressActive = ∅
  | .returned .noProgress => s.seenProgress = false ∧ graceDeadline ≤ s.clock
  | .returned .timedOut => deadline ≤ s.clock
  | .top | .poll _ | .returned (.failed _) => True

structure Inv (parse : String → Option Json) (render : Json → String) (deadline graceDeadline : Nat) (s : Wait) :
    Prop where
  active : ∀ token, token ∈ s.progressActive ↔ Running parse render s.read token
  seen : s.seenProgress = true ↔ ∃ msg ∈ s.read, OfProgress parse msg
  written : s.written = responses parse render s.read
  at_ : At deadline graceDeadline s

variable {deadline graceDeadline : Nat} {s : Wait}

theorem start_inv : Inv parse render deadline graceDeadline Wait.start where
  active token := by simp [Wait.start, Running]
  seen := by simp [Wait.start]
  written := rfl
  at_ := trivial

/-- A step that reads no message keeps the books. -/
theorem Inv.moved {s' : Wait} (h : Inv parse render deadline graceDeadline s) (hread : s'.read = s.read)
    (hactive : s'.progressActive = s.progressActive) (hseen : s'.seenProgress = s.seenProgress)
    (hwritten : s'.written = s.written) (hat : At deadline graceDeadline s') :
    Inv parse render deadline graceDeadline s' where
  active token := by rw [hactive, hread]; exact h.active token
  seen := by rw [hseen, hread]; exact h.seen
  written := by rw [hwritten, hread]; exact h.written
  at_ := hat

theorem Inv.message {s' : Wait} {msg : String} (h : Inv parse render deadline graceDeadline s)
    (hread : s'.read = s.read ++ [msg]) (hbooks : Books parse render s s' msg)
    (hat : At deadline graceDeadline s') : Inv parse render deadline graceDeadline s' where
  active token := by rw [hbooks.active, hread, running_snoc, h.active]
  seen := by rw [hbooks.seen, hread, h.seen]; simp [or_and_right, exists_or]
  written := by rw [hbooks.written, hread, responses_snoc, h.written]
  at_ := hat

theorem at_leaveDrain {new : Bool} (hdrained : s.seenProgress = true ∧ s.progressActive = ∅) :
    At deadline graceDeadline { s with point := leaveDrain new } := by
  cases new with
  | true => trivial
  | false => exact hdrained

/-- A reading of the clock. -/
theorem now_inv (h : Inv parse render deadline graceDeadline s) (t : Nat) :
    Inv parse render deadline graceDeadline (step parse render deadline graceDeadline s (.now t)) := by
  have hat := h.at_
  cases hp : s.point with
  | top =>
    simp only [step, hp]
    refine h.moved rfl rfl rfl rfl ?_
    by_cases hzero : deadline - t = 0
    · simp only [hzero, if_true, At]
      omega
    · simp only [hzero, if_false, At]
  | grace =>
    simp only [step, hp]
    simp only [At, hp] at hat
    refine h.moved rfl rfl rfl rfl ?_
    by_cases hgrace : graceDeadline ≤ t
    · simp only [hgrace, if_true, At]
      exact ⟨hat, trivial⟩
    · simp only [hgrace, if_false, At]
  | drainStart =>
    simp only [step, hp]
    simp only [At, hp] at hat
    exact h.moved rfl rfl rfl rfl hat
  | drainTest d new =>
    simp only [step, hp]
    simp only [At, hp] at hat
    refine h.moved rfl rfl rfl rfl ?_
    by_cases hd : t < d
    · simpa only [hd, if_true, At] using hat
    · simp only [hd, if_false]
      exact at_leaveDrain (s := { s with clock := t }) hat
  | drainLimit d new =>
    simp only [step, hp]
    simp only [At, hp] at hat
    refine h.moved rfl rfl rfl rfl ?_
    by_cases hd : t < deadline
    · simpa only [hd, if_true, At] using hat
    · simp only [hd, if_false]
      exact at_leaveDrain (s := { s with clock := t }) hat
  | poll _ | drainPoll _ _ | returned _ => simpa only [step, hp] using h

/-- A poll of the transport. -/
theorem read_inv (h : Inv parse render deadline graceDeadline s) (r : Except LspError (Option String)) :
    Inv parse render deadline graceDeadline (step parse render deadline graceDeadline s (.read r)) := by
  have hat := h.at_
  cases hp : s.point with
  | poll timeout =>
    cases r with
    | error e =>
      simp only [step, hp]
      exact h.moved rfl rfl rfl rfl trivial
    | ok msg =>
      cases msg with
      | none =>
        simp only [step, hp]
        refine h.moved rfl rfl rfl rfl ?_
        simp only [idle]
        by_cases hseen : s.seenProgress = true
        · by_cases hactive : s.progressActive = ∅
          · simp only [hseen, hactive, if_true, At, and_self]
          · simp only [hseen, hactive, if_true, if_false, At]
        · simp only [hseen, Bool.false_eq_true, if_false, At]
      | some msg =>
        simp only [step, hp]
        have hbooks := @handle_books parse render msg s
        exact h.message rfl ⟨hbooks.active, hbooks.seen, hbooks.written⟩ trivial
  | drainPoll d new =>
    simp only [At, hp] at hat
    cases r with
    | error e =>
      simp only [step, hp]
      exact h.moved rfl rfl rfl rfl (at_leaveDrain hat)
    | ok msg =>
      cases msg with
      | none =>
        simp only [step, hp]
        exact h.moved rfl rfl rfl rfl hat
      | some msg =>
        simp only [step, hp]
        have hbooks := @drain_books parse render d new msg s hat.1 hat.2
        refine h.message rfl ⟨hbooks.active, hbooks.seen, hbooks.written⟩ ?_
        rcases @drain_point parse render d new msg s with ⟨new', hpoint, hactive⟩ | hpoint
        · simp only [At, hpoint]
          exact ⟨hbooks.seen.mpr (.inl hat.1), hactive.trans hat.2⟩
        · simp only [At, hpoint]
  | top | grace | drainStart | drainTest _ _ | drainLimit _ _ | returned _ => simpa only [step, hp] using h

theorem step_inv (h : Inv parse render deadline graceDeadline s) (a : Answer) :
    Inv parse render deadline graceDeadline (step parse render deadline graceDeadline s a) := by
  cases a with
  | now t => exact now_inv h t
  | read r => exact read_inv h r

/-! ## The loop and the outside -/

/-- Readings of the clock since the last poll, at most. -/
def Point.since : Point → Nat
  | .top => 2
  | .poll _ => 3
  | .grace => 0
  | .drainStart => 0
  | .drainTest _ new => if new then 0 else 1
  | .drainLimit _ new => if new then 1 else 2
  | .drainPoll _ _ => 3
  | .returned _ => 3

/-- The loop has read what the transport gave, and goes on asking. -/
structure Loop.Keeps (out : Outside) (n : Nat) (l : Loop) : Prop where
  read : l.wait.read = out.heard l.polls
  clock : (l.readings = 0 ∧ l.wait.point = .top) ∨ 0 < l.readings ∧ l.wait.clock = out.clock (l.readings - 1)
  asked : (∃ r, l.wait.point = .returned r) ∨ l.readings + l.polls = n
  pace : l.readings ≤ 3 * l.polls + l.wait.point.since

section Loop

variable {out : Outside} {n : Nat} {l : Loop}

theorem heard_succ (out : Outside) (polls : Nat) : out.heard (polls + 1) = out.heard polls ++ (out.message polls).toList := by
  rw [Outside.heard, List.range_succ, List.filterMap_append]
  cases h : out.message polls <;> simp [Outside.heard, h]

/-- After a reading of the clock. -/
theorem keeps_now (h : l.Keeps out n) {s : Wait} (hread : s.read = l.wait.read) (hclock : s.clock = out.clock l.readings)
    (hasked : ¬ ∃ r, l.wait.point = .returned r) (hpace : l.wait.point.since + 1 ≤ s.point.since) :
    (⟨s, l.readings + 1, l.polls⟩ : Loop).Keeps out (n + 1) where
  read := hread.trans h.read
  clock := .inr ⟨Nat.succ_pos _, hclock⟩
  asked := by
    have hsum := h.asked.resolve_left hasked
    right
    show l.readings + 1 + l.polls = n + 1
    omega
  pace := by
    have hle := h.pace
    show l.readings + 1 ≤ 3 * l.polls + s.point.since
    omega

/-- After a poll of the transport. -/
theorem keeps_read (h : l.Keeps out n) {s : Wait} (hread : s.read = l.wait.read ++ (out.message l.polls).toList)
    (hclock : s.clock = l.wait.clock) (hasked : ¬ ∃ r, l.wait.point = .returned r) (htop : l.wait.point ≠ .top)
    (hpoint : l.wait.point.since ≤ 3) : (⟨s, l.readings, l.polls + 1⟩ : Loop).Keeps out (n + 1) where
  read := by rw [hread, h.read, heard_succ]
  clock := by
    rcases h.clock with ⟨-, hstart⟩ | ⟨hpos, hreading⟩
    · exact absurd hstart htop
    · exact .inr ⟨hpos, hclock.trans hreading⟩
  asked := by
    have hsum := h.asked.resolve_left hasked
    right
    show l.readings + (l.polls + 1) = n + 1
    omega
  pace := by
    have hle := h.pace
    show l.readings ≤ 3 * (l.polls + 1) + s.point.since
    omega

theorem handle_frame (msg : String) (s : Wait) :
    (handle parse render msg s).read = s.read ∧ (handle parse render msg s).clock = s.clock := by
  unfold handle
  repeat' split
  all_goals exact ⟨rfl, rfl⟩

theorem drain_frame (d : Nat) (new : Bool) (msg : String) (s : Wait) :
    (drain parse render d new msg s).read = s.read ∧ (drain parse render d new msg s).clock = s.clock := by
  unfold drain
  simp only
  repeat' split
  all_goals exact ⟨rfl, rfl⟩

theorem next_keeps (h : l.Keeps out n) : (l.next parse render deadline graceDeadline out).Keeps out (n + 1) := by
  cases hp : l.wait.point with
  | returned r =>
    simp only [Loop.next, hp]
    exact ⟨h.read, h.clock, .inl ⟨r, hp⟩, h.pace⟩
  | top =>
    simp only [Loop.next, hp, step]
    refine keeps_now h rfl rfl (by simp [hp]) ?_
    rw [hp]
    split <;> simp [Point.since]
  | grace =>
    simp only [Loop.next, hp, step]
    refine keeps_now h rfl rfl (by simp [hp]) ?_
    rw [hp]
    split <;> simp [Point.since]
  | drainStart =>
    simp only [Loop.next, hp, step]
    exact keeps_now h rfl rfl (by simp [hp]) (by rw [hp]; simp [Point.since])
  | drainTest d new =>
    simp only [Loop.next, hp, step]
    refine keeps_now h rfl rfl (by simp [hp]) ?_
    rw [hp]
    split <;> cases new <;> simp [Point.since, leaveDrain]
  | drainLimit d new =>
    simp only [Loop.next, hp, step]
    refine keeps_now h rfl rfl (by simp [hp]) ?_
    rw [hp]
    split <;> cases new <;> simp [Point.since, leaveDrain]
  | poll timeout =>
    simp only [Loop.next, hp]
    have hasked : ¬ ∃ r, l.wait.point = .returned r := by simp [hp]
    have hne : l.wait.point ≠ .top := by simp [hp]
    have hsince : l.wait.point.since ≤ 3 := by rw [hp]; exact le_rfl
    cases hmsg : out.transport l.polls with
    | error e => exact keeps_read h (by simp [step, hp, Outside.message, hmsg]) (by simp [step, hp]) hasked hne hsince
    | ok msg =>
      cases msg with
      | none => exact keeps_read h (by simp [step, hp, Outside.message, hmsg]) (by simp [step, hp]) hasked hne hsince
      | some msg =>
        obtain ⟨-, hclock⟩ := @handle_frame parse render msg l.wait
        refine keeps_read h (by simp [step, hp, Outside.message, hmsg]) ?_ hasked hne hsince
        simpa only [step, hp] using hclock
  | drainPoll d new =>
    simp only [Loop.next, hp]
    have hasked : ¬ ∃ r, l.wait.point = .returned r := by simp [hp]
    have hne : l.wait.point ≠ .top := by simp [hp]
    have hsince : l.wait.point.since ≤ 3 := by rw [hp]; exact le_rfl
    cases hmsg : out.transport l.polls with
    | error e => exact keeps_read h (by simp [step, hp, Outside.message, hmsg]) (by simp [step, hp]) hasked hne hsince
    | ok msg =>
      cases msg with
      | none => exact keeps_read h (by simp [step, hp, Outside.message, hmsg]) (by simp [step, hp]) hasked hne hsince
      | some msg =>
        obtain ⟨-, hclock⟩ := @drain_frame parse render d new msg l.wait
        refine keeps_read h (by simp [step, hp, Outside.message, hmsg]) ?_ hasked hne hsince
        simpa only [step, hp] using hclock

theorem leaveDrain_ne_failed (new : Bool) (e : LspError) : leaveDrain new ≠ .returned (.failed e) := by
  cases new <;> simp [leaveDrain]

theorem idle_ne_failed (s : Wait) (e : LspError) : idle s ≠ .returned (.failed e) := by
  unfold idle
  repeat' split
  all_goals simp

theorem drain_ne_failed (d : Nat) (new : Bool) (msg : String) (s : Wait) (e : LspError) :
    (drain parse render d new msg s).point ≠ .returned (.failed e) := by
  unfold drain
  simp only
  repeat' split
  all_goals simp [leaveDrain, respond]

/-- The loop fails with an error only when it is given it. -/
theorem step_failed {s : Wait} {answer : Answer} {e : LspError}
    (h : (step parse render deadline graceDeadline s answer).point = .returned (.failed e)) :
    s.point = .returned (.failed e) ∨ answer = .read (.error e) := by
  unfold step at h
  split at h
  · left
    simp only at h
    split at h
    · split at h <;> cases h
    · split at h <;> cases h
    · cases h
    · split at h
      · cases h
      · exact absurd h (leaveDrain_ne_failed _ _)
    · split at h
      · cases h
      · exact absurd h (leaveDrain_ne_failed _ _)
    all_goals exact h
  · split at h
    · cases h
    · exact absurd h (idle_ne_failed _ _)
    · cases h
      exact .inr rfl
    · exact absurd h (drain_ne_failed _ _ _ _ _)
    · cases h
    · exact absurd h (leaveDrain_ne_failed _ _)
    · exact .inl h

theorem next_inv (h : Inv parse render deadline graceDeadline l.wait) :
    Inv parse render deadline graceDeadline (l.next parse render deadline graceDeadline out).wait := by
  cases hp : l.wait.point with
  | returned r => simpa only [Loop.next, hp] using h
  | poll _ | drainPoll _ _ =>
    simp only [Loop.next, hp]
    exact step_inv h (.read _)
  | top | grace | drainStart | drainTest _ _ | drainLimit _ _ =>
    simp only [Loop.next, hp]
    exact step_inv h (.now _)

variable (parse render deadline graceDeadline out) in
theorem wait_keeps (n : Nat) :
    Inv parse render deadline graceDeadline (waitForReady parse render deadline graceDeadline out n).wait ∧
      (waitForReady parse render deadline graceDeadline out n).Keeps out n := by
  induction n with
  | zero => exact ⟨start_inv, rfl, .inl ⟨rfl, rfl⟩, .inr rfl, Nat.zero_le _⟩
  | succ n ih => exact ⟨next_inv ih.1, next_keeps ih.2⟩

/-- Where the loop failed, its last poll of the transport gave the error. -/
theorem wait_failed {n : Nat} {e : LspError}
    (h : (waitForReady parse render deadline graceDeadline out n).wait.point = .returned (.failed e)) :
    0 < (waitForReady parse render deadline graceDeadline out n).polls ∧
      out.transport ((waitForReady parse render deadline graceDeadline out n).polls - 1) = .error e := by
  induction n with
  | zero => cases h
  | succ n ih =>
    rw [waitForReady] at h ⊢
    cases hp : (waitForReady parse render deadline graceDeadline out n).wait.point with
    | returned r =>
      simp only [Loop.next, hp] at h ⊢
      exact ih (hp.trans h)
    | poll _ | drainPoll _ _ =>
      simp only [Loop.next, hp] at h ⊢
      rcases step_failed h with hfailed | hread
      · cases hp.symm.trans hfailed
      · exact ⟨Nat.succ_pos _, Answer.read.inj hread⟩
    | top | grace | drainStart | drainTest _ _ | drainLimit _ _ =>
      simp only [Loop.next, hp] at h
      rcases step_failed h with hfailed | hread
      · cases hp.symm.trans hfailed
      · cases hread

end Loop

/-- Whatever the clock and the transport answer, after any number of steps: the active
    tokens are those that have begun and not ended in the messages of the polls; each create
    request among these is answered once, in order, with its id; unless for its deadline or
    an error that the transport gave, the loop returns when progress was seen and every token
    begun has ended, or when nothing of progress was seen and the grace period is over; and
    until it returns it goes on asking, the transport after at most three readings of the clock. -/
theorem wait_tracks_progress (parse : String → Option Json) (render : Json → String) (deadline graceDeadline : Nat)
    (out : Outside) (n : Nat) :
    let l := waitForReady parse render deadline graceDeadline out n
    let heard := out.heard l.polls
    (∀ token, token ∈ l.wait.progressActive ↔ Running parse render heard token) ∧
    l.wait.written = responses parse render heard ∧
    (∀ r, l.wait.point = .returned r →
      (∃ e, r = .failed e ∧ 0 < l.polls ∧ out.transport (l.polls - 1) = .error e) ∨
      (r = .timedOut ∧ deadline ≤ out.clock (l.readings - 1)) ∨
      ((∃ msg ∈ heard, OfProgress parse msg) ∧ AllEnded parse render heard) ∨
      ((∀ msg ∈ heard, ¬ OfProgress parse msg) ∧ graceDeadline ≤ out.clock (l.readings - 1))) ∧
    ((∀ r, l.wait.point ≠ .returned r) → l.readings + l.polls = n ∧ l.readings ≤ 3 * (l.polls + 1)) := by
  intro l heard
  obtain ⟨h, hkeeps⟩ := wait_keeps parse render deadline graceDeadline out n
  have hread : l.wait.read = heard := hkeeps.read
  refine ⟨fun token => hread ▸ h.active token, hread ▸ h.written, fun r hr => ?_, fun hgoing => ?_⟩
  · have hclock : l.wait.clock = out.clock (l.readings - 1) := by
      rcases hkeeps.clock with ⟨-, hstart⟩ | ⟨-, hclock⟩
      · cases hr.symm.trans hstart
      · exact hclock
    have hat := h.at_
    rw [← hclock, ← hread]
    cases r with
    | failed e => exact .inl ⟨e, rfl, wait_failed hr⟩
    | timedOut =>
      simp only [At, show (waitForReady parse render deadline graceDeadline out n).wait.point = _ from hr] at hat
      exact .inr (.inl ⟨rfl, hat⟩)
    | settled =>
      simp only [At, show (waitForReady parse render deadline graceDeadline out n).wait.point = _ from hr] at hat
      refine .inr (.inr (.inl ⟨h.seen.mp hat.1, allEnded_iff.mpr fun token hrun => ?_⟩))
      have hmem := (h.active token).mpr hrun
      rw [hat.2] at hmem
      cases hmem
    | noProgress =>
      simp only [At, show (waitForReady parse render deadline graceDeadline out n).wait.point = _ from hr] at hat
      refine .inr (.inr (.inr ⟨fun msg hmsg hof => ?_, hat.2⟩))
      have hseen := h.seen.mpr ⟨msg, hmsg, hof⟩
      rw [hat.1] at hseen
      cases hseen
  · have hsince : l.wait.point.since ≤ 3 := by
      cases l.wait.point with
      | drainTest d new | drainLimit d new => cases new <;> simp [Point.since]
      | top | grace | drainStart | poll _ | drainPoll _ _ | returned _ => simp [Point.since]
    have hpace : l.readings ≤ 3 * l.polls + l.wait.point.since := hkeeps.pace
    refine ⟨hkeeps.asked.resolve_left fun hr => ?_, by omega⟩
    obtain ⟨r, hr⟩ := hr
    exact hgoing r hr

end Proofs

end Readiness

end CodeQuery.Lsp
