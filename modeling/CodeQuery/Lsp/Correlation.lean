/-
  CodeQuery.Lsp.Correlation — which message a request takes for its response
  (see `CodeQuery.Lsp.Transport`).

  A server sends notifications, requests of its own and responses, in any order
  (`ServerMessage`). The loop takes the first message that reads as a response with its
  id (`awaitResponse_eq`), and a request of the server's reads as one when its id is a
  number (`ofJson_message`): the ids of the two sides are separate counters, so
  nothing keeps them apart. `correlated_iff` says when a call is answered by its own
  response alone; `a_server_request_is_taken_for_the_response` is a stream on which
  it is not.
-/

import CodeQuery.Lsp.Framing

namespace CodeQuery.Lsp

open CodeQuery.Text CodeQuery.Data.Frames

/-! ## What a server sends -/

inductive MessageKind where
  | notification
  | request (id : Json)
  | response (id : Json) (result : Json)
  | errorResponse (id : Json) (error : JsonRpcError)

/-- A request's id: a number or a string. -/
def IsId (j : Json) : Prop := (∃ n, j = .num n) ∨ ∃ s, j = .str s

def Absent (name : String) (members : List (String × Json)) : Prop := name ∉ members.map Prod.fst

/-- The members that make a message of a kind; others may stand beside them. -/
def Shape (members : List (String × Json)) : MessageKind → Prop
  | .notification => (∃ m, ("method", Json.str m) ∈ members) ∧ Absent "id" members
  | .request id =>
    (∃ m, ("method", Json.str m) ∈ members) ∧ ("id", id) ∈ members ∧ IsId id ∧ Absent "result" members ∧
      Absent "error" members
  | .response id result =>
    Absent "method" members ∧ ("id", id) ∈ members ∧ ("result", result) ∈ members ∧ Absent "error" members
  | .errorResponse id error =>
    Absent "method" members ∧ ("id", id) ∈ members ∧ Absent "result" members ∧
      ∃ e, ("error", e) ∈ members ∧ JsonRpcError.ofJson e = some error

/-- A well-formed JSON-RPC message: an object with each member once. -/
structure ServerMessage where
  members : List (String × Json)
  kind : MessageKind
  once : (members.map Prod.fst).Nodup
  version : ("jsonrpc", Json.str "2.0") ∈ members
  shape : Shape members kind

/-! ## How it reads -/

theorem membersOf_absent {name : String} {members : List (String × Json)} (h : Absent name members) :
    Json.membersOf name members = [] := by
  rw [Json.membersOf, List.map_eq_nil_iff, List.filter_eq_nil_iff]
  intro m hm he
  exact h (List.mem_map.mpr ⟨m, hm, by simpa using he⟩)

theorem membersOf_mem {name : String} {j : Json} : ∀ {members : List (String × Json)},
    (members.map Prod.fst).Nodup → (name, j) ∈ members → Json.membersOf name members = [j]
  | [], _, h => by cases h
  | (k, v) :: members, hn, h => by
    obtain ⟨hk, hn'⟩ := List.nodup_cons.mp hn
    rcases List.mem_cons.mp h with he | h
    · cases he
      have hrest : Json.membersOf name members = [] := membersOf_absent hk
      simp only [Json.membersOf] at hrest
      simp [Json.membersOf, hrest]
    · have hne : (k == name) = false := by
        rw [beq_eq_false_iff_ne]
        rintro rfl
        exact hk (List.mem_map.mpr ⟨_, h, rfl⟩)
      have ih := membersOf_mem hn' h
      simp only [Json.membersOf] at ih
      simp [Json.membersOf, hne, ih]

section Fields

variable {α : Type} {conv : Json → Option α} {name : String} {j : Json} {members : List (String × Json)}

theorem requiredField_mem (hn : (members.map Prod.fst).Nodup) (h : (name, j) ∈ members) :
    requiredField conv name members = conv j := by
  simp [requiredField, membersOf_mem hn h]

theorem requiredField_absent (h : Absent name members) : requiredField conv name members = none := by
  simp [requiredField, membersOf_absent h]

theorem optionField_mem (hn : (members.map Prod.fst).Nodup) (h : (name, j) ∈ members) :
    optionField conv name members = optionValue conv j := by
  simp [optionField, membersOf_mem hn h]

theorem optionField_absent (h : Absent name members) : optionField conv name members = some none := by
  simp [optionField, membersOf_absent h]

end Fields

theorem isNull_of_error {e : Json} {error : JsonRpcError} (h : JsonRpcError.ofJson e = some error) :
    e.isNull = false := by
  cases e <;> simp_all [JsonRpcError.ofJson, Json.isNull]

/-- What `JsonRpcResponse` makes of a message: a request with a numeric id is a response
    with neither result nor error. -/
def MessageKind.asRead : MessageKind → Option JsonRpcResponse
  | .notification => none
  | .request id => id.asU64.map fun n => ⟨"2.0", n, none, none⟩
  | .response id result => id.asU64.map fun n => ⟨"2.0", n, if result.isNull then none else some result, none⟩
  | .errorResponse id error => id.asU64.map fun n => ⟨"2.0", n, none, some error⟩

theorem ofJson_message (m : ServerMessage) : JsonRpcResponse.ofJson (.obj m.members) = m.kind.asRead := by
  obtain ⟨members, kind, once, version, shape⟩ := m
  have hversion : requiredField Json.asString "jsonrpc" members = some "2.0" := requiredField_mem once version
  cases kind with
  | notification =>
    simp only [JsonRpcResponse.ofJson, hversion, requiredField_absent shape.2]
    rfl
  | request id =>
    obtain ⟨_, hid, _, hresult, herror⟩ := shape
    simp only [JsonRpcResponse.ofJson, hversion, requiredField_mem once hid, optionField_absent hresult,
      optionField_absent herror, MessageKind.asRead]
    cases id.asU64 <;> rfl
  | response id result =>
    obtain ⟨_, hid, hresult, herror⟩ := shape
    simp only [JsonRpcResponse.ofJson, hversion, requiredField_mem once hid, optionField_mem once hresult,
      optionField_absent herror, optionValue, MessageKind.asRead]
    cases id.asU64 <;> cases result.isNull <;> rfl
  | errorResponse id error =>
    obtain ⟨_, hid, hresult, e, he, hread⟩ := shape
    simp only [JsonRpcResponse.ofJson, hversion, requiredField_mem once hid, optionField_absent hresult,
      optionField_mem once he, optionValue, isNull_of_error hread, hread,
      MessageKind.asRead]
    cases id.asU64 <;> rfl

/-! ## What the loop takes -/

section Await

variable (parse : String → Option Json) (id : UInt64)

/-- The messages up to `turns` reads take off a stream. -/
def messagesRead (turns : Nat) (s : Str) : List String := (readMany readMessage turns s).1.map Prod.fst

/-- A message that reads as a response with the id. -/
def asResponse (msg : String) : Option (String × JsonRpcResponse) :=
  (((parse msg).bind JsonRpcResponse.ofJson).filter (·.id = id)).map (msg, ·)

/-- The loop takes the first message that reads as a response with the id. -/
theorem awaitResponse_eq (turns : Nat) (s : Str) : (awaitResponse parse id turns s).1 =
    match (messagesRead turns s).findSome? (asResponse parse id) with
    | some taken => .ok taken
    | none => .error ((readMany readMessage turns s).2.getD .timeout) := by
  induction turns generalizing s with
  | zero => rfl
  | succ turns ih =>
    simp only [awaitResponse, messagesRead, readMany]
    cases readMessage s with
    | mk r rest =>
      cases r with
      | error e => rfl
      | ok msg =>
        simp only [List.map_cons, List.findSome?_cons, asResponse]
        cases (parse msg).bind JsonRpcResponse.ofJson with
        | none => exact ih rest
        | some response =>
          by_cases hid : response.id = id
          · simp [hid, Option.filter]
          · simp only [hid, if_false, Option.filter_some, decide_false, Bool.false_eq_true, Option.map_none]
            exact ih rest

def IsRequestTo (msg : String) : Prop :=
  ∃ m : ServerMessage, parse msg = some (.obj m.members) ∧ ∃ j, m.kind = .request j ∧ j.asU64 = some id

/-- The message is a response to the id that carries the result. -/
def IsResponseWith (msg : String) (result : Json) : Prop :=
  ∃ m : ServerMessage, parse msg = some (.obj m.members) ∧ ∃ j, m.kind = .response j result ∧ j.asU64 = some id

/-- The message is a response to the id, with a result or an error. -/
def Answers (msg : String) : Prop :=
  ∃ m : ServerMessage, parse msg = some (.obj m.members) ∧
    ∃ j, j.asU64 = some id ∧ ((∃ result, m.kind = .response j result) ∨ ∃ error, m.kind = .errorResponse j error)

variable {parse id}

theorem asResponse_some {msg : String} {taken : String × JsonRpcResponse} :
    asResponse parse id msg = some taken ↔
      taken.1 = msg ∧ (parse msg).bind JsonRpcResponse.ofJson = some taken.2 ∧ taken.2.id = id := by
  obtain ⟨t, r⟩ := taken
  simp only [asResponse, Option.map_eq_some_iff, Option.filter_eq_some_iff, decide_eq_true_eq, Prod.mk.injEq]
  constructor
  · intro hall
    obtain ⟨r', ⟨h, hid⟩, rfl, rfl⟩ := hall
    exact ⟨rfl, h, hid⟩
  · intro hall
    obtain ⟨rfl, h, hid⟩ := hall
    exact ⟨r, ⟨h, hid⟩, rfl, rfl⟩

/-- A server's message that reads as a response with the id is a request or a response
    to it. -/
theorem asResponse_message {msg : String} {m : ServerMessage} (hp : parse msg = some (.obj m.members))
    {response : JsonRpcResponse} (h : asResponse parse id msg = some (msg, response)) :
    (IsRequestTo parse id msg ∧ response.result = none ∧ response.error = none) ∨
      (∃ result, IsResponseWith parse id msg result ∧ response.result.getD .null = result ∧ response.error = none) ∨
        Answers parse id msg ∧ response.error.isSome = true := by
  obtain ⟨_, hread, hid⟩ := asResponse_some.mp h
  rw [hp, Option.bind_some, ofJson_message] at hread
  unfold MessageKind.asRead at hread
  split at hread
  · cases hread
  · rename_i j hk
    obtain ⟨n, hn, rfl⟩ := Option.map_eq_some_iff.mp hread
    exact Or.inl ⟨⟨m, hp, j, hk, by rw [hn]; exact congrArg some hid⟩, rfl, rfl⟩
  · rename_i j result hk
    obtain ⟨n, hn, rfl⟩ := Option.map_eq_some_iff.mp hread
    refine Or.inr (Or.inl ⟨result, ⟨m, hp, j, hk, by rw [hn]; exact congrArg some hid⟩, ?_, rfl⟩)
    cases result <;> rfl
  · rename_i j error hk
    obtain ⟨n, hn, rfl⟩ := Option.map_eq_some_iff.mp hread
    exact Or.inr (Or.inr ⟨⟨m, hp, j, by rw [hn]; exact congrArg some hid, Or.inr ⟨error, hk⟩⟩, rfl⟩)

/-- A request of the server's or a response, with the id, reads as a response with it. -/
theorem asResponse_isSome {msg : String} (h : IsRequestTo parse id msg ∨ Answers parse id msg) :
    (asResponse parse id msg).isSome = true := by
  have key : ∀ response : JsonRpcResponse, (parse msg).bind JsonRpcResponse.ofJson = some response → response.id = id →
      (asResponse parse id msg).isSome = true := by
    intro response hread hid
    rw [asResponse_some.mpr (⟨rfl, hread, hid⟩ : ((msg, response) : String × JsonRpcResponse).1 = msg ∧ _)]
    rfl
  rcases h with ⟨m, hp, j, hk, hj⟩ | ⟨m, hp, j, hj, ⟨result, hk⟩ | ⟨error, hk⟩⟩
  · exact key ⟨"2.0", id, none, none⟩ (by simp [hp, ofJson_message, hk, MessageKind.asRead, hj]) rfl
  · exact key ⟨"2.0", id, if result.isNull then none else some result, none⟩
      (by simp [hp, ofJson_message, hk, MessageKind.asRead, hj]) rfl
  · exact key ⟨"2.0", id, none, some error⟩ (by simp [hp, ofJson_message, hk, MessageKind.asRead, hj]) rfl

/-- No message is both a request and a response. -/
theorem request_not_answer {msg : String} (h : IsRequestTo parse id msg) : ¬ Answers parse id msg := by
  intro h
  obtain ⟨m, hp, j, _, hk⟩ := h
  obtain ⟨m', hp', j', hk', _⟩ := h
  have hmembers : m'.members = m.members := by
    rw [hp'] at hp
    injection hp with hp
    injection hp
  have hs' := m'.shape
  rw [hk', hmembers] at hs'
  obtain ⟨⟨name, hmethod⟩, _⟩ := hs'
  have hpresent : ¬ Absent "method" m.members := fun h => h (List.mem_map.mpr ⟨_, hmethod, rfl⟩)
  have hs := m.shape
  rcases hk with ⟨result, hk⟩ | ⟨error, hk⟩
  · rw [hk] at hs
    exact hpresent hs.1
  · rw [hk] at hs
    exact hpresent hs.1

theorem IsResponseWith.answers {msg : String} {result : Json} (h : IsResponseWith parse id msg result) :
    Answers parse id msg := by
  obtain ⟨m, hp, j, hk, hj⟩ := h
  exact ⟨m, hp, j, hj, Or.inl ⟨result, hk⟩⟩

/-- What was taken is the first of the messages read that reads as a response. -/
theorem awaitResponse_ok {turns : Nat} {s : Str} {msg : String} {response : JsonRpcResponse}
    (h : (awaitResponse parse id turns s).1 = .ok (msg, response)) :
    ∃ before after, messagesRead turns s = before ++ msg :: after ∧ (∀ a ∈ before, asResponse parse id a = none) ∧
      asResponse parse id msg = some (msg, response) := by
  rw [awaitResponse_eq] at h
  split at h
  · rename_i taken htaken
    cases h
    obtain ⟨before, x, after, hsplit, hx, hskip⟩ := List.findSome?_eq_some_iff.mp htaken
    obtain rfl : msg = x := (asResponse_some.mp hx).1
    exact ⟨before, after, hsplit, hskip, hx⟩
  · cases h

end Await

/-! ## Calls -/

section Call

variable (parse : String → Option Json) (render : Json → String)

/-- What the call returns is the result of a response to its own id, and that response
    is the message it took. -/
def Correlated (method : String) (params : Json) (writes : Bool) (turns : Nat) (counter : UInt64)
    (t : StdioTransport) : Prop :=
  ∀ v, (sendRequest parse render method params writes turns counter t).1 = .ok v →
    ∃ msg response, (awaitResponse parse (nextRequestId counter).1 turns t.stdout).1 = .ok (msg, response) ∧
      IsResponseWith parse (nextRequestId counter).1 msg v

variable {parse render}

theorem sendRequest_ok {method : String} {params : Json} {writes : Bool} {turns : Nat} {counter : UInt64}
    {t : StdioTransport} {v : Json} :
    (sendRequest parse render method params writes turns counter t).1 = .ok v ↔
      writes = true ∧ ∃ msg response, (awaitResponse parse counter turns t.stdout).1 = .ok (msg, response) ∧
        response.error = none ∧ v = response.result.getD .null := by
  simp only [sendRequest, nextRequestId]
  cases writes with
  | false => simp
  | true =>
    simp only [if_true, true_and]
    cases h : (awaitResponse parse counter turns t.stdout).1 with
    | error e => simp [resultOf]
    | ok taken =>
      obtain ⟨msg, response⟩ := taken
      cases he : response.error with
      | none => simp [resultOf, he, eq_comm]
      | some err => simp [resultOf, he]

/-- For every stream of a server's messages: a call is answered by its own response
    alone if and only if, among the messages it reads, no request of the server's with
    the call's id comes before the first response to it. -/
theorem correlated_iff {method : String} {params : Json} {writes : Bool} {turns : Nat} {counter : UInt64}
    {t : StdioTransport}
    (hwf : ∀ msg ∈ messagesRead turns t.stdout, ∃ m : ServerMessage, parse msg = some (.obj m.members)) :
    Correlated parse render method params writes turns counter t ↔
      (writes = true → ∀ before msg after, messagesRead turns t.stdout = before ++ msg :: after →
        IsRequestTo parse counter msg → ∃ a ∈ before, Answers parse counter a) := by
  constructor
  · intro hcor hw before msg after hread hreq
    -- some message up to the request matches; the first that does is taken
    obtain ⟨taken, htaken⟩ : ∃ taken, (before ++ [msg]).findSome? (asResponse parse counter) = some taken := by
      rw [← Option.isSome_iff_exists, List.findSome?_isSome_iff]
      exact ⟨msg, by simp, asResponse_isSome (Or.inl hreq)⟩
    have hawait : (awaitResponse parse counter turns t.stdout).1 = .ok taken := by
      rw [awaitResponse_eq, hread, List.append_cons, List.findSome?_append, htaken]
      rfl
    obtain ⟨x, response⟩ := taken
    obtain ⟨a, hmem, hx⟩ := List.exists_of_findSome?_eq_some htaken
    obtain rfl : x = a := (asResponse_some.mp hx).1
    obtain ⟨m, hp⟩ := hwf x (by rw [hread, List.append_cons]; exact List.mem_append_left _ hmem)
    have hanswers : Answers parse counter x → ∃ a ∈ before, Answers parse counter a := by
      intro ha
      rcases List.mem_append.mp hmem with hb | hb
      · exact ⟨x, hb, ha⟩
      · rw [List.mem_singleton.mp hb] at ha
        exact absurd ha (request_not_answer hreq)
    rcases asResponse_message hp hx with ⟨hxreq, hres, herr⟩ | ⟨result, hxres, _⟩ | ⟨hans, _⟩
    · obtain ⟨msg', response', hawait', hresp⟩ := hcor _ (sendRequest_ok.mpr ⟨hw, x, response, hawait, herr, rfl⟩)
      have he : (x, response) = (msg', response') := Except.ok.inj (hawait.symm.trans hawait')
      cases he
      exact absurd hresp.answers (request_not_answer hxreq)
    · exact hanswers hxres.answers
    · exact hanswers hans
  · intro hcond v hv
    obtain ⟨hw, msg, response, hawait, herr, rfl⟩ := sendRequest_ok.mp hv
    obtain ⟨before, after, hread, hskip, hmsg⟩ := awaitResponse_ok hawait
    obtain ⟨m, hp⟩ := hwf msg (by rw [hread]; simp)
    rcases asResponse_message hp hmsg with ⟨hreq, _⟩ | ⟨result, hres, hv, _⟩ | ⟨_, hsome⟩
    · obtain ⟨a, ha, hans⟩ := hcond hw before msg after hread hreq
      have := asResponse_isSome (Or.inr hans)
      rw [hskip a ha] at this
      cases this
    · exact ⟨msg, response, hawait, by rw [hv]; exact hres⟩
    · rw [herr] at hsome
      cases hsome

end Call

/-! ## A server's request under the call's id -/

def createMembers : List (String × Json) :=
  [("jsonrpc", .str "2.0"), ("id", .num (.posInt 1)), ("method", .str "window/workDoneProgress/create"),
    ("params", .obj [("token", .str "t")])]

def createText : String :=
  "\x7b\"jsonrpc\":\"2.0\",\"id\":1,\"method\":\"window/workDoneProgress/create\",\"params\":\x7b\"token\":\"t\"\x7d\x7d"

def locationsMembers : List (String × Json) :=
  [("jsonrpc", .str "2.0"), ("id", .num (.posInt 1)), ("result", .arr [])]

def locationsText : String := "\x7b\"jsonrpc\":\"2.0\",\"id\":1,\"result\":[]\x7d"

/-- What `serde_json` makes of the two texts. -/
def twoTexts (s : String) : Option Json :=
  if s = createText then some (.obj createMembers) else if s = locationsText then some (.obj locationsMembers) else none

def createMessage : ServerMessage where
  members := createMembers
  kind := .request (.num (.posInt 1))
  once := by decide
  version := by simp [createMembers]
  shape := ⟨⟨"window/workDoneProgress/create", by simp [createMembers]⟩, by simp [createMembers], Or.inl ⟨_, rfl⟩,
    by simp [Absent, createMembers], by simp [Absent, createMembers]⟩

def locationsMessage : ServerMessage where
  members := locationsMembers
  kind := .response (.num (.posInt 1)) (.arr [])
  once := by decide
  version := by simp [locationsMembers]
  shape := ⟨by simp [Absent, locationsMembers], by simp [locationsMembers], by simp [locationsMembers],
    by simp [Absent, locationsMembers]⟩

/-- What `serde_json` makes of the request below. -/
def requestText (_ : Json) : String :=
  "\x7b\"jsonrpc\":\"2.0\",\"id\":1,\"method\":\"textDocument/references\",\"params\":null\x7d"

/-- A server asks to show progress under its id 1, then answers the client's request 1. -/
def askingServer : StdioTransport := ⟨[], writeMessage createText ++ writeMessage locationsText⟩

theorem askingServer_read : messagesRead 2 askingServer.stdout = [createText, locationsText] := by
  have hc : (str createText).length ≤ isizeMax := by decide
  have hl : (str locationsText).length ≤ isizeMax := by decide
  have h := readMessage_frame.readMany [Frame.plain createText hc, Frame.plain locationsText hl] []
    (fun _ _ => trivial)
  simp only [List.flatMap_cons, List.flatMap_nil, encode_plain, List.append_nil, List.length_cons, List.length_nil] at h
  rw [messagesRead, askingServer, h]
  rfl

theorem askingServer_taken : (awaitResponse twoTexts 1 2 askingServer.stdout).1 =
    .ok (createText, ⟨"2.0", 1, none, none⟩) := by
  rw [awaitResponse_eq, askingServer_read]
  rfl

/-- The request is taken for the response: the call returns null, and the response is
    never read. -/
theorem a_server_request_is_taken_for_the_response :
    (sendRequest twoTexts requestText "textDocument/references" .null true 2 1 askingServer).1 = .ok .null ∧
      ¬ Correlated twoTexts requestText "textDocument/references" .null true 2 1 askingServer := by
  have hok : (sendRequest twoTexts requestText "textDocument/references" .null true 2 1 askingServer).1 = .ok .null :=
    sendRequest_ok.mpr ⟨rfl, _, _, askingServer_taken, rfl, rfl⟩
  refine ⟨hok, fun hcor => ?_⟩
  obtain ⟨msg, response, hawait, hres⟩ := hcor _ hok
  have he : (createText, (⟨"2.0", 1, none, none⟩ : JsonRpcResponse)) = (msg, response) :=
    Except.ok.inj (askingServer_taken.symm.trans hawait)
  cases he
  exact request_not_answer ⟨createMessage, rfl, _, rfl, rfl⟩ hres.answers

theorem correlated_iff_asking :
    Correlated twoTexts requestText "textDocument/references" .null true 2 1 askingServer ↔
      (true = true → ∀ before msg after, messagesRead 2 askingServer.stdout = before ++ msg :: after →
        IsRequestTo twoTexts 1 msg → ∃ a ∈ before, Answers twoTexts 1 a) := by
  refine correlated_iff fun msg hmsg => ?_
  rw [askingServer_read] at hmsg
  rcases List.mem_cons.mp hmsg with rfl | hmsg
  · exact ⟨createMessage, rfl⟩
  · rw [List.mem_singleton.mp hmsg]
    exact ⟨locationsMessage, rfl⟩

end CodeQuery.Lsp
