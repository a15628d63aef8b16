/-
  CodeQuery.Mcp.Correlation — which lines get a response with their id
  (see `CodeQuery.Mcp.Server`).

  A request that is read gets one response, with its id, and a notification none. A line
  that is not UTF-8 ends the loop, so nothing behind it is answered
  (`a_bad_line_silences_the_rest`), and an object that does not read as a request is
  answered without its id. `serve_correlated_iff` says which inputs have neither.
-/

import CodeQuery.Mcp.Server

namespace CodeQuery.Mcp

open CodeQuery.Lsp (Json requiredField optionField optionValue)
open CodeQuery.Text

section Lines

variable (serde : Serde)

/-- The line is a JSON object. -/
def IsObject (line : Str) (members : List (String × Json)) : Prop :=
  (trimmed line).bind serde.fromStr = some (.obj members)

/-- The object has an id that is not null. -/
def HasId (line : Str) (id : Json) : Prop :=
  ∃ members, IsObject serde line members ∧ get "id" (.obj members) = some id ∧ id.isNull = false

/-- A request that has no id. -/
def IsNotification (line : Str) : Prop :=
  ∃ members, IsObject serde line members ∧ (JsonRpcRequest.ofJson (.obj members)).isSome = true ∧
    get "id" (.obj members) = none

/-- The object reads as a request. -/
def IsRequest (line : Str) : Prop :=
  ∃ members, IsObject serde line members ∧ (JsonRpcRequest.ofJson (.obj members)).isSome = true

/-- What a line must get. -/
structure Answered (line : Str) (answer : Option JsonRpcResponse) : Prop where
  request : ∀ id, HasId serde line id → ∃ response, answer = some response ∧ response.id = some id
  notification : IsNotification serde line → answer = none

/-- No line up to an object with an id is bad, and the object is a request. -/
def Readable (lines : List Str) : Prop :=
  ∀ (i : Nat) (line : Str) (id : Json), lines[i]? = some line → HasId serde line id →
    (∀ (j : Nat) (earlier : Str), j < i → lines[j]? = some earlier → (fromUtf8 earlier).isSome = true) ∧ IsRequest serde line

end Lines

/-! ## One message -/

section Message

variable {σ : Type} (serde : Serde) (sys : System σ) (env : Environment)

theorem route_id (request : JsonRpcRequest) (w : σ) : (route serde sys env request w).1.id = request.id := by
  unfold route
  split
  · rfl
  · rfl
  · unfold handleToolsCall
    split <;> rfl
  · rfl
  · rfl

theorem handleMessage_none {raw : String} (h : (serde.fromStr raw).bind JsonRpcRequest.ofJson = none) (w : σ) :
    ∃ response, (handleMessage serde sys env raw w).1 = some response ∧ response.id = none := by
  rw [handleMessage, h]
  exact ⟨_, rfl, rfl⟩

theorem handleMessage_request {raw : String} {request : JsonRpcRequest}
    (h : (serde.fromStr raw).bind JsonRpcRequest.ofJson = some request) {id : Json} (hid : request.id = some id) (w : σ) :
    ∃ response, (handleMessage serde sys env raw w).1 = some response ∧ response.id = some id := by
  rw [handleMessage, h]
  refine ⟨(route serde sys env request w).1, ?_, (route_id serde sys env request w).trans hid⟩
  simp [hid]

theorem handleMessage_notification {raw : String} {request : JsonRpcRequest}
    (h : (serde.fromStr raw).bind JsonRpcRequest.ofJson = some request) (hid : request.id = none) (w : σ) :
    (handleMessage serde sys env raw w).1 = none := by
  rw [handleMessage, h]
  simp [hid]

end Message

/-- A request that is read has the object's id. -/
theorem ofJson_id {members : List (String × Json)} {request : JsonRpcRequest}
    (h : JsonRpcRequest.ofJson (.obj members) = some request) :
    request.id = (get "id" (.obj members)).bind fun id => if id.isNull then none else some id := by
  simp only [JsonRpcRequest.ofJson, Option.bind_eq_bind, Option.bind_eq_some_iff, Option.some.injEq] at h
  obtain ⟨jsonrpc, _, id, hid, method, _, params, _, rfl⟩ := h
  show id = ((Json.membersOf "id" members).getLast?).bind _
  unfold optionField at hid
  split at hid
  · rename_i hnone
    rw [hnone, ← Option.some.inj hid]
    rfl
  · rename_i j hone
    rw [hone]
    rw [optionValue] at hid
    rw [List.getLast?_singleton, Option.bind_some]
    split at hid
    · rename_i hnull
      rw [if_pos hnull]
      exact (Option.some.inj hid).symm
    · rename_i hnull
      rw [if_neg hnull]
      exact (Option.some.inj hid).symm
  · cases hid

/-! ## Runs -/

section Runs

variable {σ : Type} (serde : Serde) (sys : System σ) (env : Environment)

/-- Each line of the input gets what it must. -/
def Correlated (lines : List Str) (w : σ) : Prop :=
  ∀ (i : Nat) (line : Str), lines[i]? = some line → Answered serde line (answerAt serde sys env lines w i)

/-- The answer to a line that is read. -/
def lineAnswer (raw : String) (w : σ) : Option JsonRpcResponse :=
  if raw.isEmpty then none else (handleMessage serde sys env raw w).1

/-- The state that a line leaves. -/
def lineState (raw : String) (w : σ) : σ := if raw.isEmpty then w else (handleMessage serde sys env raw w).2

theorem serve_cons {line : Str} {raw : String} (h : trimmed line = some raw) (rest : List Str) (w : σ) :
    serve serde sys env (line :: rest) w =
      lineAnswer serde sys env raw w :: serve serde sys env rest (lineState serde sys env raw w) := by
  rw [serve, h, lineAnswer, lineState]
  by_cases hempty : raw.isEmpty = true
  · simp [hempty]
  · simp [hempty]

theorem serve_bad {line : Str} (h : trimmed line = none) (rest : List Str) (w : σ) :
    serve serde sys env (line :: rest) w = [] := by
  rw [serve, h]

theorem isObject_raw {line : Str} {raw : String} (h : trimmed line = some raw) {members : List (String × Json)} :
    IsObject serde line members ↔ serde.fromStr raw = some (.obj members) := by
  rw [IsObject, h, Option.bind_some]

theorem isObject_unique {line : Str} {members members' : List (String × Json)} (h : IsObject serde line members)
    (h' : IsObject serde line members') : members = members' := by
  rw [IsObject] at h h'
  rw [h] at h'
  injection h' with h'
  injection h'

section Object

variable {raw : String} {members : List (String × Json)}

/-- An object is no empty line. -/
theorem lineAnswer_object (h : serde.fromStr raw = some (.obj members)) (w : σ) :
    lineAnswer serde sys env raw w = (handleMessage serde sys env raw w).1 := by
  rw [lineAnswer, if_neg]
  intro hempty
  rw [String.isEmpty_iff.mp hempty, serde.fromStr_empty] at h
  cases h

theorem fromStr_request (h : serde.fromStr raw = some (.obj members)) :
    (serde.fromStr raw).bind JsonRpcRequest.ofJson = JsonRpcRequest.ofJson (.obj members) := by
  rw [h, Option.bind_some]

theorem lineAnswer_request (h : serde.fromStr raw = some (.obj members)) {request : JsonRpcRequest}
    (hrequest : JsonRpcRequest.ofJson (.obj members) = some request) {id : Json}
    (hget : get "id" (.obj members) = some id) (hnull : id.isNull = false) (w : σ) :
    ∃ response, lineAnswer serde sys env raw w = some response ∧ response.id = some id := by
  have hid : request.id = some id := by
    rw [ofJson_id hrequest, hget, Option.bind_some, hnull, if_neg Bool.false_ne_true]
  rw [lineAnswer_object serde sys env h]
  exact handleMessage_request serde sys env ((fromStr_request serde h).trans hrequest) hid w

theorem lineAnswer_notification (h : serde.fromStr raw = some (.obj members)) {request : JsonRpcRequest}
    (hrequest : JsonRpcRequest.ofJson (.obj members) = some request) (hget : get "id" (.obj members) = none) (w : σ) :
    lineAnswer serde sys env raw w = none := by
  have hid : request.id = none := by
    rw [ofJson_id hrequest, hget, Option.bind_none]
  rw [lineAnswer_object serde sys env h]
  exact handleMessage_notification serde sys env ((fromStr_request serde h).trans hrequest) hid w

theorem lineAnswer_unread (h : serde.fromStr raw = some (.obj members))
    (hbad : JsonRpcRequest.ofJson (.obj members) = none) (w : σ) :
    ∃ response, lineAnswer serde sys env raw w = some response ∧ response.id = none := by
  rw [lineAnswer_object serde sys env h]
  exact handleMessage_none serde sys env ((fromStr_request serde h).trans hbad) w

end Object

/-- A line that is read gets what it must unless it is an object with an id and no
    request. -/
theorem answered_iff {line : Str} {raw : String} (h : trimmed line = some raw) (w : σ) :
    Answered serde line (lineAnswer serde sys env raw w) ↔ ∀ id, HasId serde line id → IsRequest serde line := by
  constructor
  · rintro hanswered id ⟨members, hobj, hget, hnull⟩
    refine ⟨members, hobj, ?_⟩
    by_contra hnot
    obtain ⟨response, hresponse, hnone⟩ :=
      lineAnswer_unread serde sys env ((isObject_raw serde h).mp hobj) (Option.not_isSome_iff_eq_none.mp hnot) w
    obtain ⟨response', hresponse', hid⟩ := hanswered.request id ⟨members, hobj, hget, hnull⟩
    rw [hresponse] at hresponse'
    rw [← Option.some.inj hresponse', hnone] at hid
    cases hid
  · intro hall
    refine ⟨?_, ?_⟩
    · rintro id ⟨members, hobj, hget, hnull⟩
      obtain ⟨members', hobj', hrequest⟩ := hall id ⟨members, hobj, hget, hnull⟩
      obtain rfl := isObject_unique serde hobj hobj'
      obtain ⟨request, hrequest⟩ := Option.isSome_iff_exists.mp hrequest
      exact lineAnswer_request serde sys env ((isObject_raw serde h).mp hobj) hrequest hget hnull w
    · intro hcase
      obtain ⟨members, hobj, hrequest, hget⟩ := hcase
      obtain ⟨request, hrequest⟩ := Option.isSome_iff_exists.mp hrequest
      exact lineAnswer_notification serde sys env ((isObject_raw serde h).mp hobj) hrequest hget w

/-! ## All lines -/

/-- A property of the places of a list, at the head and in the rest. -/
theorem forall_getElem?_cons {α : Type*} {a : α} {as : List α} {p : Nat → α → Prop} :
    (∀ i b, (a :: as)[i]? = some b → p i b) ↔ p 0 a ∧ ∀ i b, as[i]? = some b → p (i + 1) b := by
  constructor
  · intro h
    exact ⟨h 0 a rfl, fun i b hb => h (i + 1) b hb⟩
  · rintro ⟨hhead, htail⟩ i b hb
    cases i with
    | zero => exact Option.some.inj hb ▸ hhead
    | succ i => exact htail i b hb

theorem correlated_cons {line : Str} {raw : String} (h : trimmed line = some raw) (rest : List Str) (w : σ) :
    Correlated serde sys env (line :: rest) w ↔
      (∀ id, HasId serde line id → IsRequest serde line) ∧ Correlated serde sys env rest (lineState serde sys env raw w) := by
  rw [Correlated, forall_getElem?_cons, ← answered_iff serde sys env h w]
  simp only [answerAt, serve_cons serde sys env h]
  rfl

theorem trimmed_isSome {line : Str} : (trimmed line).isSome = (fromUtf8 line).isSome := by
  rw [trimmed, Option.isSome_map]

theorem readable_cons {line : Str} {raw : String} (h : trimmed line = some raw) (rest : List Str) :
    Readable serde (line :: rest) ↔ (∀ id, HasId serde line id → IsRequest serde line) ∧ Readable serde rest := by
  have hgood : (fromUtf8 line).isSome = true := by
    rw [← trimmed_isSome, h]
    rfl
  constructor
  · intro hall
    refine ⟨fun id hid => (hall 0 line id rfl hid).2, fun i other id hother hid => ?_⟩
    obtain ⟨hearlier, hrequest⟩ := hall (i + 1) other id hother hid
    exact ⟨fun j earlier hj hget => hearlier (j + 1) earlier (by omega) hget, hrequest⟩
  · rintro ⟨hhead, htail⟩ i other id hother hid
    cases i with
    | zero =>
      cases Option.some.inj hother
      exact ⟨fun j _ hj => by omega, hhead id hid⟩
    | succ i =>
      obtain ⟨hearlier, hrequest⟩ := htail i other id hother hid
      refine ⟨fun j earlier hj hget => ?_, hrequest⟩
      cases j with
      | zero => exact Option.some.inj hget ▸ hgood
      | succ j => exact hearlier j earlier (by omega) hget

/-- Behind a bad line nothing is answered, so no object with an id may be there. -/
theorem correlated_bad {line : Str} (h : trimmed line = none) (rest : List Str) (w : σ) :
    Correlated serde sys env (line :: rest) w ↔ Readable serde (line :: rest) := by
  have hnone : ∀ i, answerAt serde sys env (line :: rest) w i = none := by
    intro i
    rw [answerAt, serve_bad serde sys env h]
    rfl
  have hbad : ∀ id, ¬ HasId serde line id := by
    rintro id ⟨members, hobj, -⟩
    rw [IsObject, h] at hobj
    cases hobj
  constructor
  · intro hall i other id hother hid
    obtain ⟨response, hresponse, -⟩ := (hall i other hother).request id hid
    rw [hnone] at hresponse
    cases hresponse
  · intro hall i other hother
    refine ⟨fun id hid => ?_, fun _ => hnone i⟩
    cases i with
    | zero =>
      cases Option.some.inj hother
      exact absurd hid (hbad id)
    | succ i =>
      have hgood := (hall (i + 1) other id hother hid).1 0 line (by omega) rfl
      rw [← trimmed_isSome, h] at hgood
      cases hgood

/-- Every object with an id gets one response with that id, and every notification none,
    exactly when no line up to such an object is bad and each of them is a request. -/
theorem serve_correlated_iff (input : Str) (w : σ) :
    Correlated serde sys env (splitInclusive input) w ↔ Readable serde (splitInclusive input) := by
  induction splitInclusive input generalizing w with
  | nil => simp [Correlated, Readable]
  | cons line rest ih =>
    cases h : trimmed line with
    | none => exact correlated_bad serde sys env h rest w
    | some raw =>
      rw [correlated_cons serde sys env h, readable_cons serde h, ih]

end Runs

/-! ## A bad line -/

def ping : String := "\x7b\"jsonrpc\":\"2.0\",\"id\":1,\"method\":\"ping\"\x7d"

def pingMembers : List (String × Json) := [("jsonrpc", .str "2.0"), ("id", .num (.posInt 1)), ("method", .str "ping")]

/-- What `serde_json` makes of the texts here. -/
def pingSerde : Serde where
  fromStr text := if text = ping then some (.obj pingMembers) else none
  requestError _ := "expected value at line 1 column 1"
  paramsError _ := "invalid type"
  fromStr_empty := by decide

/-- A system on which nothing can be read, written or run. -/
def emptySystem : System Unit :=
  ⟨fun _ _ => .error "No such file or directory (os error 2)", fun w _ _ => (.error "Permission denied (os error 13)", w),
    fun w _ _ => (.error "No such file or directory (os error 2)", w)⟩

/-- A byte that no text has, a line feed, and a request. -/
def badThenPing : Str := [0xFF, lf] ++ str (ping ++ "\n")

theorem badThenPing_lines : splitInclusive badThenPing = [[0xFF, lf], str (ping ++ "\n")] := by
  decide +kernel

theorem ping_hasId : HasId pingSerde (str (ping ++ "\n")) (.num (.posInt 1)) := by
  refine ⟨pingMembers, ?_, rfl, rfl⟩
  have htrim : String.ofList (trim (ping ++ "\n").toList) = ping := by decide +kernel
  rw [IsObject, trimmed, fromUtf8_str, Option.map_some, htrim, Option.bind_some]
  simp [pingSerde]

/-- The loop ends at the bad line, and the request behind it is not answered. -/
theorem a_bad_line_silences_the_rest :
    ¬ Correlated pingSerde emptySystem (fun _ => none) (splitInclusive badThenPing) () := by
  intro h
  rw [badThenPing_lines] at h
  obtain ⟨response, hresponse, -⟩ := (h 1 _ rfl).request _ ping_hasId
  have hbad : trimmed [0xFF, lf] = none := by decide +kernel
  rw [answerAt, serve_bad pingSerde emptySystem _ hbad] at hresponse
  cases hresponse

end CodeQuery.Mcp
