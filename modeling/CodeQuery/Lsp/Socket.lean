/-
  CodeQuery.Lsp.Socket — the messages between client and daemon and their framing
  (`codequery-lsp/src/socket.rs`).

  A frame is the JSON of a message with its length in front, four bytes, the most
  significant first. The writer takes any length and keeps its last 32 bits; the reader
  refuses more than 16 MiB. Within that limit a frame is read exactly
  (`readMessage_written`), beyond it not (`a_long_message_is_refused`).
-/

import CodeQuery.Core.Path
import CodeQuery.Lsp.Transport

namespace CodeQuery.Lsp.Socket

open CodeQuery.Core CodeQuery.Text CodeQuery.Data.Frames

/-! ## Messages -/

structure Position where
  line : UInt32
  character : UInt32
  deriving DecidableEq, Repr

structure Range where
  start : Position
  end_ : Position
  deriving DecidableEq, Repr

structure LspLocation where
  uri : String
  range : Range
  deriving DecidableEq, Repr

inductive DaemonRequest where
  | query (project : Path) (language operation : String) (file : Path) (line column : Nat) (symbol : Option String)
  | status
  | shutdown
  | authenticate (token : String)
  deriving DecidableEq, Repr

structure ServerInfo where
  project : Path
  language : String
  uptimeSecs : Nat
  deriving DecidableEq, Repr

inductive DaemonResponse where
  | locations (l : List LspLocation)
  | hover (text : Option String)
  | status (servers : List ServerInfo) (uptimeSecs : Nat)
  | ok
  | authOk
  | error (message : String)
  deriving DecidableEq, Repr

/-! ## Framing -/

/-- `serde_json` on a message type: what it writes it reads back. Writing can fail (a
    path that is no text). -/
structure Codec (μ : Type) where
  encode : μ → Option Str
  decode : Str → Option μ
  roundTrip : ∀ m json, encode m = some json → decode json = some m

/-- `u32::to_be_bytes`. -/
def toBeBytes (n : UInt32) : Str :=
  [.ofNat (n.toNat / 2 ^ 24), .ofNat (n.toNat / 2 ^ 16), .ofNat (n.toNat / 2 ^ 8), .ofNat n.toNat]

/-- `u32::from_be_bytes`. -/
def fromBeBytes (bytes : Str) : Nat := bytes.foldl (fun n b => n * 256 + b.toNat) 0

def maxMessageSize : Nat := 16 * 1024 * 1024

section Framing

variable {μ : Type} (c : Codec μ)

/-- The length as it is cast to `u32`, then the JSON. -/
def frame (json : Str) : Str := toBeBytes (.ofNat json.length) ++ json

def writeMessage (message : μ) : Option Str := (c.encode message).map frame

def readMessage : Read UInt8 μ LspError := fun s =>
  match readExact 4 s with
  | (.error _, rest) => (.error (.connectionFailed .closed), rest)
  | (.ok lenBytes, rest) =>
    let len := fromBeBytes lenBytes
    if maxMessageSize < len then (.error (.connectionFailed (.tooLarge len)), rest)
    else
      match readExact len rest with
      | (.error e, rest) => (.error e, rest)
      | (.ok buf, rest) =>
        match c.decode buf with
        | some message => (.ok message, rest)
        | none => (.error .json, rest)

end Framing

/-! ## The length in front -/

theorem fromBeBytes_toBeBytes (n : UInt32) : fromBeBytes (toBeBytes n) = n.toNat := by
  have hn : n.toNat < 2 ^ 32 := n.toNat_lt
  simp only [fromBeBytes, toBeBytes, List.foldl_cons, List.foldl_nil, UInt8.toNat_ofNat']
  omega

theorem readExact_append (a rest : Str) : readExact a.length (a ++ rest) = (.ok a, rest) := by
  simp [readExact]

/-- The length a reader finds in front of a JSON text. -/
theorem readExact_frame (json rest : Str) :
    readExact 4 (frame json ++ rest) = (.ok (toBeBytes (.ofNat json.length)), json ++ rest) := by
  rw [frame, List.append_assoc]
  exact readExact_append (toBeBytes (.ofNat json.length)) (json ++ rest)

theorem fromBeBytes_length {json : Str} (h : json.length < 2 ^ 32) :
    fromBeBytes (toBeBytes (.ofNat json.length)) = json.length := by
  rw [fromBeBytes_toBeBytes, UInt32.toNat_ofNat_of_lt' h]

/-! ## Frames read back -/

section Written

variable {μ : Type} {c : Codec μ}

/-- A message its writer has written. -/
structure Written (c : Codec μ) where
  message : μ
  json : Str
  encoded : c.encode message = some json

def Written.bytes (w : Written c) : Str := frame w.json

theorem Written.written (w : Written c) : writeMessage c w.message = some w.bytes := by
  rw [writeMessage, w.encoded]; rfl

/-- Within the reader's limit a frame is read exactly. -/
theorem readMessage_written :
    Exact (fun w : Written c => w.json.length ≤ maxMessageSize) Written.bytes Written.message (readMessage c) := by
  intro w hfits rest
  have hlt : w.json.length < 2 ^ 32 := by simp only [maxMessageSize] at hfits; omega
  simp only [readMessage, Written.bytes, readExact_frame, fromBeBytes_length hlt, Nat.not_lt.mpr hfits, if_false,
    readExact_append, c.roundTrip _ _ w.encoded]

/-- A longer one is refused by its length. -/
theorem readMessage_tooLarge (w : Written c) (hlong : maxMessageSize < w.json.length) (hlt : w.json.length < 2 ^ 32)
    (rest : Str) :
    readMessage c (w.bytes ++ rest) = (.error (.connectionFailed (.tooLarge w.json.length)), w.json ++ rest) := by
  simp only [readMessage, Written.bytes, readExact_frame, fromBeBytes_length hlt, hlong, if_true]

/-- Messages written one after the other, none of them longer than the reader's limit,
    are read back in order, each read leaving the stream at the next frame. -/
theorem written_read_back (ws : List (Written c)) (hfit : ∀ w ∈ ws, w.json.length ≤ maxMessageSize) :
    (∀ w ∈ ws, writeMessage c w.message = some w.bytes) ∧
      readMany (readMessage c) ws.length (ws.flatMap Written.bytes) =
        (expected Written.bytes Written.message [] ws, none) ∧
      (expected Written.bytes Written.message [] ws).map Prod.fst = ws.map Written.message :=
  ⟨fun w _ => w.written, by simpa using readMessage_written.readMany ws [] hfit, expected_values ..⟩

end Written

/-! ## A message beyond the limit -/

def quoted (n : Nat) : Str := 34 :: (List.replicate n 97 ++ [34])

theorem quoted_length (n : Nat) : (quoted n).length = n + 2 := by simp [quoted]

/-- A text of so many letters, in JSON. -/
def letters : Codec Nat where
  encode n := some (quoted n)
  decode json := if json = quoted (json.length - 2) then some (json.length - 2) else none
  roundTrip n json h := by
    obtain rfl := Option.some.inj h
    simp [quoted_length]

/-- 16 MiB with the quotes and one letter more: written, but not read. -/
def longText : Written letters := ⟨maxMessageSize - 1, quoted (maxMessageSize - 1), rfl⟩

theorem a_long_message_is_refused :
    writeMessage letters longText.message = some longText.bytes ∧
      (readMessage letters longText.bytes).1 = .error (.connectionFailed (.tooLarge 16777217)) := by
  have hlen : longText.json.length = 16777217 := quoted_length _
  have h := readMessage_tooLarge longText (by rw [hlen]; decide) (by rw [hlen]; decide) []
  rw [List.append_nil, hlen] at h
  exact ⟨longText.written, by rw [h]⟩

def shortTexts : List (Written letters) := [⟨0, quoted 0, rfl⟩, ⟨3, quoted 3, rfl⟩]

theorem written_read_back_short :
    (∀ w ∈ shortTexts, writeMessage letters w.message = some w.bytes) ∧
      readMany (readMessage letters) shortTexts.length (shortTexts.flatMap Written.bytes) =
        (expected Written.bytes Written.message [] shortTexts, none) ∧
      (expected Written.bytes Written.message [] shortTexts).map Prod.fst = shortTexts.map Written.message :=
  written_read_back shortTexts (by decide)

end CodeQuery.Lsp.Socket
