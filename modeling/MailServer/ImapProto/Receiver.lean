import MailServer.Lib.Except
import Mathlib.Algebra.Order.Ring.Nat

/-!
# The request receiver (`imap-proto/src/receiver.rs`)

A byte-level state machine that turns what a client sends into requests.  It serves IMAP and ManageSieve.

* `CommandParser`: what the receiver asks of a protocol's commands.
* `Receiver.parseByte`: one byte, one function for each state.
* `Receiver.parse`: bytes up to the first at which there is something to return.
* `parseByte_same`: what no byte changes.
-/

namespace MailServer.ImapProto

/-! ## Bytes -/

abbrev TAB : UInt8 := 9
abbrev LF : UInt8 := 10
abbrev CR : UInt8 := 13
abbrev SP : UInt8 := 32
abbrev DQUOTE : UInt8 := 34
abbrev LPAREN : UInt8 := 40
abbrev RPAREN : UInt8 := 41
abbrev PLUS : UInt8 := 43
abbrev DOT : UInt8 := 46
abbrev LT : UInt8 := 60
abbrev GT : UInt8 := 62
abbrev LBRACKET : UInt8 := 91
abbrev BACKSLASH : UInt8 := 92
abbrev RBRACKET : UInt8 := 93
abbrev LBRACE : UInt8 := 123
abbrev RBRACE : UInt8 := 125
abbrev TILDE : UInt8 := 126

def isAsciiWhitespace (ch : UInt8) : Bool :=
  ch == SP || ch == TAB || ch == LF || ch == 12 || ch == CR

def isAsciiDigit (ch : UInt8) : Bool := 48 ≤ ch && ch ≤ 57

def isAsciiAlphanumeric (ch : UInt8) : Bool :=
  isAsciiDigit ch || (65 ≤ ch && ch ≤ 90) || (97 ≤ ch && ch ≤ 122)

def toAsciiUppercase (ch : UInt8) : UInt8 := if 97 ≤ ch && ch ≤ 122 then ch - 32 else ch

/-- The bytes of a byte string literal. -/
def ascii (s : String) : List UInt8 := s.toUTF8.data.toList

def eqIgnoreAsciiCase (a b : List UInt8) : Bool := a.map toAsciiUppercase == b.map toAsciiUppercase

/-- `String::from_utf8`. -/
def fromUtf8 (buf : List UInt8) : Option String := String.fromUTF8? ⟨buf.toArray⟩

/-- The number that a string of digits stands for. -/
def ofDigits (buf : List UInt8) : ℕ := buf.foldl (fun n ch => 10 * n + (ch.toNat - 48)) 0

/-- `str::parse::<u32>` on digits. -/
def parseU32 (buf : List UInt8) : Option ℕ :=
  if buf.all isAsciiDigit && ofDigits buf < 2 ^ 32 then some (ofDigits buf) else none

/-! ## Requests -/

inductive Token where
  | argument (value : List UInt8)
  | parenthesisOpen
  | parenthesisClose
  | bracketOpen
  | bracketClose
  | lt
  | gt
  | dot
  | nil
  deriving DecidableEq

class CommandParser (T : Type*) extends Inhabited T where
  parse : List UInt8 → Bool → Option T
  tokenizeBrackets : T → Bool

structure Request (T : Type*) where
  tag : String
  command : T
  tokens : List Token
  deriving DecidableEq

instance {T : Type*} [CommandParser T] : Inhabited (Request T) := ⟨⟨"", default, []⟩⟩

/-- A value formatted into the text of an error. -/
inductive Arg where
  | debug (s : String)
  | lossy (bytes : List UInt8)
  | debugChar (ch : UInt8)
  | size (n : ℕ)
  deriving DecidableEq

inductive Message where
  | text (s : String)
  | format (before : String) (arg : Arg) (after : String)
  deriving DecidableEq

inductive Error where
  | needsMoreData
  | needsLiteral (size : ℕ)
  /-- `Error::err`: a response of type BAD and code PARSE. -/
  | error (tag : Option String) (message : Message)
  deriving DecidableEq

/-! ## The receiver -/

inductive State where
  | start
  | tag
  | command (isUid : Bool)
  | argument (lastCh : UInt8)
  | argumentQuoted (escaped : Bool)
  | literal (nonSync : Bool)
  | literalSeek (size : ℕ) (nonSync : Bool)
  | literalData (remaining : ℕ)
  deriving DecidableEq

structure Receiver (T : Type*) where
  buf : List UInt8
  request : Request T
  state : State
  maxRequestSize : ℕ
  currentRequestSize : ℕ
  startState : State
  deriving DecidableEq

def ARG_MAX_LEN : ℕ := 8000

/-- An error returned by `?` comes with the receiver as it then is. -/
abbrev Res (T : Type*) := Except (Error × Receiver T)

/-- What a byte leads to when there is no error. -/
inductive Flow (T : Type*) where
  | next (r : Receiver T)
  | done (request : Request T) (r : Receiver T)

namespace Receiver

variable {T : Type*} [CommandParser T]

def withMaxRequestSize (maxRequestSize : ℕ) : Receiver T :=
  ⟨[], default, .start, maxRequestSize, 0, .start⟩

def withStartState (r : Receiver T) (state : State) : Receiver T :=
  { r with state := state, startState := state }

/-- `error_reset`: the receiver forgets the request. -/
def reset (r : Receiver T) : Receiver T :=
  { r with request := default, buf := [], state := r.startState, currentRequestSize := 0 }

def errorReset (r : Receiver T) (message : Message) : Error × Receiver T :=
  (.error (if r.request.tag ≠ "" then some r.request.tag else none) message, r.reset)

def tooLarge (r : Receiver T) : Message :=
  .format "Request exceeds maximum limit of " (.size r.maxRequestSize) " bytes."

/-- A token is pushed behind the others. -/
def addToken (r : Receiver T) (token : Token) : Receiver T :=
  { r with request := { r.request with tokens := r.request.tokens ++ [token] } }

/-- Some bytes are charged, and the request refused once they are too many. -/
def charge (r : Receiver T) (size : ℕ) : Res T (Receiver T) :=
  let r := { r with currentRequestSize := r.currentRequestSize + size }
  if r.currentRequestSize > r.maxRequestSize then .error (r.errorReset r.tooLarge) else .ok r

def pushArgument (r : Receiver T) (inQuote : Bool) : Res T (Receiver T) :=
  if r.buf ≠ [] then do
    let r ← r.charge r.buf.length
    return { r.addToken (.argument r.buf) with buf := [] }
  else if inQuote then
    .ok (r.addToken .nil)
  else
    .ok r

def pushToken (r : Receiver T) (token : Token) : Res T (Receiver T) := do
  let r ← r.charge 1
  return r.addToken token

def pushUnchecked (r : Receiver T) (byte : UInt8) : Receiver T := { r with buf := r.buf ++ [byte] }

/-- `push_checked`, with the error that every caller makes of its failure. -/
def pushChecked (r : Receiver T) (byte : UInt8) (limit : ℕ) (message : String) : Res T (Receiver T) :=
  if r.buf.length < limit then .ok (r.pushUnchecked byte) else .error (r.errorReset (.text message))

/-- The receiver without its request. -/
def taken (r : Receiver T) : Receiver T :=
  { r with request := default, state := r.startState, currentRequestSize := 0 }

/-- The request is complete. -/
def finish (r : Receiver T) : Flow T := .done r.request r.taken

def parseStart (r : Receiver T) (ch : UInt8) : Res T (Flow T) :=
  if !isAsciiWhitespace ch then
    .ok (.next { r.pushUnchecked ch with state := .tag })
  else
    .ok (.next r)

def parseTag (r : Receiver T) (ch : UInt8) : Res T (Flow T) :=
  if ch = SP then
    if r.buf ≠ [] then
      match fromUtf8 r.buf with
      | some tag =>
        .ok (.next { r with buf := [], request := { r.request with tag := tag }, state := .command false })
      | none => .error ({ r with buf := [] }.errorReset (.text "Tag is not a valid UTF-8 string."))
    else
      .ok (.next r)
  else if ch = TAB ∨ ch = CR then
    .ok (.next r)
  else if ch = LF then
    .error (r.errorReset
      (.format "Missing command after tag " (.debug ((fromUtf8 r.buf).getD "")) ", found CRLF instead."))
  else do
    let r ← r.pushChecked ch 128 "Tag exceeds maximum length of 128 characters."
    return .next r

def parseCommand (r : Receiver T) (isUid : Bool) (ch : UInt8) : Res T (Flow T) :=
  if isAsciiAlphanumeric ch then do
    let r ← r.pushChecked (toAsciiUppercase ch) 15 "Command exceeds maximum length of 15 characters."
    return .next r
  else if isAsciiWhitespace ch then
    if r.buf ≠ [] then
      if !eqIgnoreAsciiCase r.buf (ascii "UID") then
        match CommandParser.parse r.buf isUid with
        | none => .error (r.errorReset (.format "Unrecognized command '" (.lossy r.buf) "'."))
        | some command =>
          let r := { r with request := { r.request with command := command }, buf := [] }
          if ch ≠ LF then .ok (.next { r with state := .argument SP }) else .ok r.finish
      else
        .ok (.next { r with buf := [], state := .command true })
    else
      .ok (.next r)
  else
    .error (r.errorReset (.format "Invalid character " (.debugChar ch) " in command name."))

/-- The tokens that end an argument; all but the parentheses only where the command wants them. -/
def bracketToken (r : Receiver T) (ch : UInt8) : Option Token :=
  if ch = LPAREN then some .parenthesisOpen
  else if ch = RPAREN then some .parenthesisClose
  else if !CommandParser.tokenizeBrackets r.request.command then none
  else if ch = LBRACKET then some .bracketOpen
  else if ch = RBRACKET then some .bracketClose
  else if ch = LT then some .lt
  else if ch = GT then some .gt
  else if ch = DOT then some .dot
  else none

def parseArgument (r : Receiver T) (lastCh : UInt8) (ch : UInt8) : Res T (Flow T) :=
  if ch = DQUOTE ∧ isAsciiWhitespace lastCh then do
    let r ← r.pushArgument false
    return .next { r with state := .argumentQuoted false }
  else if ch = LBRACE ∧ (isAsciiWhitespace lastCh ∨ (lastCh = TILDE ∧ r.buf.length = 1)) then do
    let r ← (if lastCh ≠ TILDE then r.pushArgument false else .ok { r with buf := [] })
    return .next { r with state := .literal false }
  else
    match r.bracketToken ch with
    | some token => do
      let r ← r.pushArgument false
      let r ← r.pushToken token
      return .next r
    | none =>
      if ch = LF then do
        let r ← r.pushArgument false
        return r.finish
      else if isAsciiWhitespace ch then do
        let r ← r.pushArgument false
        return .next { r with state := .argument ch }
      else do
        let r ← r.pushChecked ch ARG_MAX_LEN "Argument exceeds maximum length of 8000 bytes."
        return .next { r with state := .argument ch }

def parseQuoted (r : Receiver T) (escaped : Bool) (ch : UInt8) : Res T (Flow T) :=
  if ch = DQUOTE then
    if !escaped then do
      let r ← r.pushArgument true
      return .next { r with state := .argument SP }
    else do
      let r ← r.pushChecked ch ARG_MAX_LEN "Quoted argument too long."
      return .next { r with state := .argumentQuoted false }
  else if ch = BACKSLASH then do
    let r ← (if escaped then r.pushChecked ch ARG_MAX_LEN "Quoted argument too long." else .ok r)
    return .next { r with state := .argumentQuoted !escaped }
  else if ch = LF then
    .error (r.errorReset (.text "Unterminated quoted argument."))
  else do
    let r := if escaped then r.pushUnchecked BACKSLASH else r
    let r ← r.pushChecked ch ARG_MAX_LEN "Quoted argument too long."
    return .next { r with state := .argumentQuoted false }

def parseLiteral (r : Receiver T) (nonSync : Bool) (ch : UInt8) : Res T (Flow T) :=
  if ch = RBRACE then
    if r.buf ≠ [] then
      match parseU32 r.buf with
      | none => .error (r.errorReset (.text "Literal size is not a valid number."))
      | some size =>
        if r.currentRequestSize + size > r.maxRequestSize then
          .error (r.errorReset
            (.format "Literal exceeds the maximum request size of " (.size r.maxRequestSize) " bytes."))
        else
          .ok (.next { r with state := .literalSeek size nonSync, buf := [] })
    else
      .error (r.errorReset (.text "Invalid empty literal."))
  else if ch = PLUS then
    if r.buf ≠ [] then
      .ok (.next { r with state := .literal true })
    else
      .error (r.errorReset (.text "Invalid non-sync literal."))
  else if isAsciiDigit ch then
    if !nonSync then do
      let r ← r.pushChecked ch 15 "Literal size exceeds maximum of 15 digits."
      return .next r
    else
      .error (r.errorReset (.text "Invalid literal."))
  else
    .error (r.errorReset (.format "Invalid character " (.debugChar ch) " in literal."))

def parseLiteralSeek (r : Receiver T) (size : ℕ) (nonSync : Bool) (ch : UInt8) : Res T (Flow T) :=
  if ch = LF then do
    let r ← (if size > 0 then .ok { r with state := .literalData size }
      else pushToken { r with state := .argument SP } .nil)
    if !nonSync then .error (.needsLiteral size, r) else return .next r
  else if !isAsciiWhitespace ch then
    .error (r.errorReset (.text "Expected CRLF after literal, found an invalid char."))
  else
    .ok (.next r)

def parseLiteralData (r : Receiver T) (remaining : ℕ) (ch : UInt8) : Res T (Flow T) :=
  let r := r.pushUnchecked ch
  if remaining > 1 then
    .ok (.next { r with state := .literalData (remaining - 1) })
  else do
    let r ← r.pushArgument false
    return .next { r with state := .argument SP }

/-- One turn of the loop in `Receiver::parse`. -/
def parseByte (r : Receiver T) (ch : UInt8) : Res T (Flow T) :=
  match r.state with
  | .start => r.parseStart ch
  | .tag => r.parseTag ch
  | .command isUid => r.parseCommand isUid ch
  | .argument lastCh => r.parseArgument lastCh ch
  | .argumentQuoted escaped => r.parseQuoted escaped ch
  | .literal nonSync => r.parseLiteral nonSync ch
  | .literalSeek size nonSync => r.parseLiteralSeek size nonSync ch
  | .literalData remaining => r.parseLiteralData remaining ch

/-- `Receiver::parse`: the result, the receiver, and the bytes that are left in the iterator. -/
def parse (r : Receiver T) : List UInt8 → Except Error (Request T) × Receiver T × List UInt8
  | [] => (.error .needsMoreData, r, [])
  | ch :: bytes =>
    match r.parseByte ch with
    | .ok (.next r) => r.parse bytes
    | .ok (.done request r) => (.ok request, r, bytes)
    | .error (e, r) => (.error e, r, bytes)

/-! ## What no byte changes -/

open MailServer.Lib

/-- The start state and the limit are those of the first receiver. -/
def Same (r₀ r : Receiver T) : Prop := r.startState = r₀.startState ∧ r.maxRequestSize = r₀.maxRequestSize

/-- A complete request leaves the receiver in its start state, with nothing in the buffer. -/
def FlowSame (r₀ : Receiver T) : Flow T → Prop
  | .next r => Same r₀ r
  | .done _ r => Same r₀ r ∧ r.state = r₀.startState

variable {r₀ r : Receiver T}

/-- Neither the result nor the error changes it. -/
abbrev Keeps {α : Type*} (r₀ : Receiver T) (Q : α → Prop) : Res T α → Prop := Post Q fun e => Same r₀ e.2

section

variable (h : Same r₀ r)
include h

theorem charge_same (size : ℕ) : Keeps r₀ (Same r₀) (r.charge size) :=
  .ite (fun _ => h) fun _ => h

theorem pushArgument_same (inQuote : Bool) : Keeps r₀ (Same r₀) (r.pushArgument inQuote) :=
  .ite (fun _ => (charge_same h _).bind fun _ h' => h') fun _ => .ite (fun _ => h) fun _ => h

theorem pushToken_same (token : Token) : Keeps r₀ (Same r₀) (r.pushToken token) :=
  (charge_same h 1).bind fun _ h' => h'

theorem pushChecked_same (byte : UInt8) (limit : ℕ) (message : String) :
    Keeps r₀ (Same r₀) (r.pushChecked byte limit message) :=
  .ite (fun _ => h) fun _ => h

theorem parseTag_same (ch : UInt8) : Keeps r₀ (FlowSame r₀) (r.parseTag ch) := by
  refine .ite (fun _ => .ite (fun _ => ?_) fun _ => h) fun _ => .ite (fun _ => h) fun _ =>
    .ite (fun _ => h) fun _ => (pushChecked_same h ch 128 _).bind fun _ h' => h'
  cases fromUtf8 r.buf <;> exact h

theorem parseCommand_same (isUid : Bool) (ch : UInt8) :
    Keeps r₀ (FlowSame r₀) (r.parseCommand isUid ch) := by
  refine .ite (fun _ => (pushChecked_same h _ 15 _).bind fun _ h' => h') fun _ =>
    .ite (fun _ => .ite (fun _ => .ite (fun _ => ?_) fun _ => h) fun _ => h) fun _ => h
  cases (CommandParser.parse r.buf isUid : Option T) with
  | none => exact h
  | some command => exact .ite (fun _ => h) fun _ => ⟨h, h.1⟩

theorem parseArgument_same (lastCh ch : UInt8) :
    Keeps r₀ (FlowSame r₀) (r.parseArgument lastCh ch) := by
  have hpush := pushArgument_same h false
  refine .ite (fun _ => hpush.bind fun _ h' => h') fun _ =>
    .ite (fun _ => Post.bind (.ite (fun _ => hpush) fun _ => h) fun _ h' => h') fun _ => ?_
  cases r.bracketToken ch with
  | some token => exact hpush.bind fun _ h' => (pushToken_same h' token).bind fun _ h'' => h''
  | none =>
    exact .ite (fun _ => hpush.bind fun _ h' => ⟨h', h'.1⟩) fun _ => .ite (fun _ => hpush.bind fun _ h' => h')
      fun _ => (pushChecked_same h ch _ _).bind fun _ h' => h'

theorem parseQuoted_same (escaped : Bool) (ch : UInt8) :
    Keeps r₀ (FlowSame r₀) (r.parseQuoted escaped ch) := by
  have hcheck := pushChecked_same h ch ARG_MAX_LEN "Quoted argument too long."
  refine .ite (fun _ => .ite (fun _ => (pushArgument_same h true).bind fun _ h' => h') fun _ =>
      hcheck.bind fun _ h' => h') fun _ =>
    .ite (fun _ => Post.bind (.ite (fun _ => hcheck) fun _ => h) fun _ h' => h') fun _ =>
    .ite (fun _ => h) fun _ => (pushChecked_same ?_ ch _ _).bind fun _ h' => h'
  split <;> exact h

theorem parseLiteral_same (nonSync : Bool) (ch : UInt8) :
    Keeps r₀ (FlowSame r₀) (r.parseLiteral nonSync ch) := by
  refine .ite (fun _ => .ite (fun _ => ?_) fun _ => h) fun _ => .ite (fun _ => .ite (fun _ => h) fun _ => h)
    fun _ => .ite (fun _ => .ite (fun _ => (pushChecked_same h ch 15 _).bind fun _ h' => h') fun _ => h) fun _ => h
  cases parseU32 r.buf with
  | none => exact h
  | some size => exact .ite (fun _ => h) fun _ => h

theorem parseLiteralSeek_same (size : ℕ) (nonSync : Bool) (ch : UInt8) :
    Keeps r₀ (FlowSame r₀) (r.parseLiteralSeek size nonSync ch) := by
  refine .ite (fun _ => ?_) fun _ => .ite (fun _ => h) fun _ => h
  refine Post.bind (Q := Same r₀) (.ite (fun _ => h) fun _ => ?_) fun _ h' => .ite (fun _ => h') fun _ => h'
  exact pushToken_same (r := { r with state := .argument SP }) h .nil

theorem parseLiteralData_same (remaining : ℕ) (ch : UInt8) :
    Keeps r₀ (FlowSame r₀) (r.parseLiteralData remaining ch) :=
  .ite (fun _ => h) fun _ => (pushArgument_same (r := r.pushUnchecked ch) h false).bind fun _ h' => h'

end

theorem parseByte_same (r : Receiver T) (ch : UInt8) : Keeps r (FlowSame r) (r.parseByte ch) := by
  have h : Same r r := ⟨rfl, rfl⟩
  unfold parseByte
  cases r.state with
  | start => exact .ite (fun _ => h) fun _ => h
  | tag => exact parseTag_same h ch
  | command isUid => exact parseCommand_same h isUid ch
  | argument lastCh => exact parseArgument_same h lastCh ch
  | argumentQuoted escaped => exact parseQuoted_same h escaped ch
  | literal nonSync => exact parseLiteral_same h nonSync ch
  | literalSeek size nonSync => exact parseLiteralSeek_same h size nonSync ch
  | literalData remaining => exact parseLiteralData_same h remaining ch

end Receiver

end MailServer.ImapProto
