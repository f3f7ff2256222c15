import BobUI.Corelib.Text.Strings
import Mathlib.Data.Int.Notation
import Mathlib.Tactic.Common
import Mathlib.Tactic.SplitIfs

/-!
# Authorities

`setAuthority` of `qurl.cpp`, with the functions for the user information and the host that it
calls.  It reads the port into an `unsigned long`, without a bound on the number of digits.
-/

/-- The widths of `unsigned long`. -/
inductive DataModel where
  | llp64 | lp64
deriving DecidableEq, Repr

def DataModel.ulongBits : DataModel → ℕ
  | .llp64 => 32
  | .lp64 => 64

/-- The modes of `QUrl::ParsingMode` for encoded text. -/
inductive ParsingMode where
  | TolerantMode | StrictMode
deriving DecidableEq, Repr

namespace QUrlPrivate

/-- The sections that `validateComponent` is for. -/
inductive Section where
  | UserName | Password | UserInfo | Host | Path | Query | Fragment
deriving DecidableEq, Repr

inductive ErrorCode where
  | InvalidUserNameError
  | InvalidPasswordError
  | InvalidRegNameError
  | InvalidIPv6AddressError
  | InvalidCharacterInIPv6Error
  | InvalidIPvFutureError
  | HostMissingEndBracket
  | InvalidPortError
  | InvalidPathError
  | InvalidQueryError
  | InvalidFragmentError
deriving DecidableEq, Repr

structure Error where
  source : QString
  position : ℤ
  code : ErrorCode
deriving DecidableEq, Repr

/-- The bits of `sectionIsPresent`. -/
def UserName : UInt8 := 0x02

def Password : UInt8 := 0x04

def Host : UInt8 := 0x08

/-- `UserInfo | Host | Port`. -/
def Authority : UInt8 := 0x1e

end QUrlPrivate

/-- The members of `QUrlPrivate` that an authority is stored in. -/
structure QUrlPrivate where
  port : ℤ
  userName : QString
  password : QString
  host : QString
  error : Option QUrlPrivate.Error
  sectionIsPresent : UInt8
deriving DecidableEq, Repr

/-- The functions that recode the parts of an authority.  `parseIp4` and `qt_ACE_do` give the host
that they make of a text; `parseIpFuture` and `parseIp6` also the place where they gave up, and
`qt_urlRecode` the text if it was changed. -/
structure HostParsers where
  userNameInIsolation : QString → ParsingMode → QString
  passwordInIsolation : QString → ParsingMode → QString
  parseIp4 : QString → Option QString
  parseIpFuture : QString → ParsingMode → QString × Option ℕ
  parseIp6 : QString → ParsingMode → QString × Option ℕ
  qt_urlRecode : QString → Option QString
  qt_ACE_do : QString → QString

namespace QUrlPrivate

def at_ : UInt16 := 0x40

def colon : UInt16 := 0x3a

def openBracket : UInt16 := 0x5b

def closeBracket : UInt16 := 0x5d

def isAsciiDigit (c : UInt16) : Bool :=
  0x30 ≤ c && c ≤ 0x39

/-- `isHex`, of the low octet of a character. -/
def isHex (c : UInt16) : Bool :=
  let c := (c &&& 0xff) ||| 0x20
  isAsciiDigit c || (0x61 ≤ c && c ≤ 0x66)

/-- `"<>\^{|}` with the backtick and the delete character. -/
def forbidden : List UInt16 :=
  [0x22, 0x3c, 0x3e, 0x5c, 0x5e, 0x60, 0x7b, 0x7c, 0x7d, 0x7f]

/-- `:/?#[]@`. -/
def forbiddenUserInfo : List UInt16 :=
  [0x3a, 0x2f, 0x3f, 0x23, 0x5b, 0x5d, 0x40]

/-- `setError` keeps the error of a previous section. -/
def setError (d : QUrlPrivate) (code : ErrorCode) (source : QString) (supplement : ℤ) :
    QUrlPrivate :=
  match d.error with
  | some _ => d
  | none => { d with error := some ⟨source, supplement, code⟩ }

/-- Whether the character at `i` may not stand in the section; there is a null character behind
the text. -/
def isForbidden (sect : Section) (input : QString) (stop i : ℕ) : Bool :=
  let uc := input.getD i 0
  if uc ≥ 0x80 then false
  else if (uc = 0x25 && (stop < i + 2 || !isHex (input.getD (i + 1) 0)
      || !isHex (input.getD (i + 2) 0))) || uc ≤ 0x20 || forbidden.contains uc then true
  else
    match sect with
    | .UserInfo => forbiddenUserInfo.tail.contains uc
    | .UserName | .Password => forbiddenUserInfo.contains uc
    | _ => false

/-- The code for a forbidden character at `i`. -/
def sectionError (sect : Section) (input : QString) (start i : ℕ) : ErrorCode :=
  match sect with
  | .UserInfo =>
    if colon ∈ input.between start i then .InvalidPasswordError else .InvalidUserNameError
  | .UserName => .InvalidUserNameError
  | .Password => .InvalidPasswordError
  | .Host => .InvalidRegNameError
  | .Path => .InvalidPathError
  | .Query => .InvalidQueryError
  | .Fragment => .InvalidFragmentError

/-- The place of the first character that may not stand in the section. -/
def firstForbidden (sect : Section) (input : QString) (start stop : ℕ) : Option ℕ :=
  (List.range' start (stop - start)).find? (isForbidden sect input stop)

/-- `validateComponent`. -/
def validateComponent (d : QUrlPrivate) (sect : Section) (input : QString) (start stop : ℕ) :
    QUrlPrivate × Bool :=
  match firstForbidden sect input start stop with
  | some i => (d.setError (sectionError sect input start i) input i, false)
  | none => (d, true)

/-! ### The parts -/

section

variable (x : HostParsers)

/-- `setUserInfo`. -/
def setUserInfo (d : QUrlPrivate) (value : QString) (mode : ParsingMode) : QUrlPrivate :=
  match value.indexOf colon 0 with
  | none =>
    { d with
      userName := x.userNameInIsolation value mode
      password := []
      sectionIsPresent := (d.sectionIsPresent ||| UserName) &&& ~~~Password }
  | some delimIndex =>
    { d with
      userName := x.userNameInIsolation (value.take delimIndex) mode
      password := x.passwordInIsolation (value.drop (delimIndex + 1)) mode
      sectionIsPresent := d.sectionIsPresent ||| UserName ||| Password }

/-- The part of `setHost` for an IPv6 address, between the brackets of a text. -/
def setIp6Host (d : QUrlPrivate) (text value : QString) (start : ℕ) (mode : ParsingMode) :
    QUrlPrivate × Bool :=
  let (host, c) := x.parseIp6 text.tail.dropLast mode
  let d := { d with host }
  match c with
  | none => (d, true)
  | some c =>
    if c = text.length - 2 then (d.setError .InvalidIPv6AddressError value start, false)
    else (d.setError .InvalidCharacterInIPv6Error value (start + 1 + c), false)

/-- The part of `setHost` for a text that begins with a bracket, from `start` on in `value`. -/
def setBracketedHost (d : QUrlPrivate) (text value : QString) (start : ℕ) (mode : ParsingMode) :
    QUrlPrivate × Bool :=
  if text.getLast? ≠ some closeBracket then
    (d.setError .HostMissingEndBracket value (-1), false)
  else if text[1]? = some 0x76 then
    if text.length > 5 then
      let (host, c) := x.parseIpFuture text mode
      let d := { d with host }
      match c with
      | some c => (d.setError .InvalidIPvFutureError value (start + c), false)
      | none => (d, true)
    else setIp6Host x (d.setError .InvalidIPvFutureError value start) text value start mode
  else setIp6Host x d text value start mode

/-- The part of `setHost` for a registered name, where no percent-encoding is left. -/
def setNormalisedHost (d : QUrlPrivate) (text value : QString) : QUrlPrivate × Bool :=
  let s := x.qt_ACE_do text
  if s = [] then (d.setError .InvalidRegNameError value (-1), false)
  else
    match x.parseIp4 s with
    | some ip4 => ({ d with host := ip4 }, true)
    | none => ({ d with host := s }, true)

/-- `setHost` of a text that is not null; `again` is the call for a text that was recoded. -/
def setHostWith (again : QUrlPrivate → QString → QUrlPrivate × Bool) (d : QUrlPrivate)
    (value : QString) (start stop : ℕ) (mode : ParsingMode) : QUrlPrivate × Bool :=
  let text := value.between start stop
  let d := { d with host := [], sectionIsPresent := d.sectionIsPresent ||| Host }
  if text = [] then (d, true)
  else if text.head? = some openBracket then setBracketedHost x d text value start mode
  else
    match x.parseIp4 text with
    | some ip4 => ({ d with host := ip4 }, true)
    | none =>
      match if mode = .TolerantMode then x.qt_urlRecode text else none with
      | some s =>
        match s.indexOf 0x25 0 with
        | some pos => (d.setError .InvalidRegNameError s pos, false)
        | none => again d s
      | none => setNormalisedHost x d text value

/-- `setHost`.  In strict mode nothing is recoded. -/
def setHost (d : QUrlPrivate) (value : QString) (start stop : ℕ) (mode : ParsingMode) :
    QUrlPrivate × Bool :=
  setHostWith x
    (fun d s => setHostWith x (fun d _ => (d, true)) d s 0 s.length .StrictMode)
    d value start stop mode

end

/-! ### The authority -/

section

variable (data : DataModel)

/-- The loop that reads the port. -/
def readPort : ℕ → QString → ℕ
  | x, [] => x
  | x, c :: rest =>
    if isAsciiDigit c then
      readPort ((x * 10 % 2 ^ data.ulongBits + (c.toNat - 0x30)) % 2 ^ data.ulongBits) rest
    else 2 ^ data.ulongBits - 1

/-- The place of the colon before the port, which does not stand inside of brackets. -/
def colonIndex (auth : QString) (start stop : ℕ) : Option ℕ :=
  match auth.lastIndexOf colon (stop - 1) with
  | none => none
  | some colonIndex =>
    if colonIndex < start then none
    else if auth[start]? = some openBracket then
      match auth.indexOf closeBracket start with
      | none => none
      | some closingBracket => if closingBracket > colonIndex then none else some colonIndex
    else some colonIndex

/-- The user information, and where the host begins; an error leaves the loop. -/
def readUserInfo (x : HostParsers) (d : QUrlPrivate) (auth : QString) (start stop : ℕ)
    (mode : ParsingMode) : Except QUrlPrivate (QUrlPrivate × ℕ) :=
  match auth.indexOf at_ start with
  | none => .ok (d, start)
  | some userInfoIndex =>
    if userInfoIndex < stop then
      let d := d.setUserInfo x (auth.between start userInfoIndex) mode
      match mode with
      | .TolerantMode => .ok (d, userInfoIndex + 1)
      | .StrictMode =>
        match d.validateComponent .UserInfo auth start userInfoIndex with
        | (d, true) => .ok (d, userInfoIndex + 1)
        | (d, false) => .error d
    else .ok (d, start)

/-- The port, behind the colon. -/
def setPort (d : QUrlPrivate) (auth : QString) (colonIndex : Option ℕ) (stop : ℕ)
    (mode : ParsingMode) : Except QUrlPrivate QUrlPrivate :=
  match colonIndex with
  | none => .ok d
  | some colonIndex =>
    if colonIndex < stop - 1 then
      let x := readPort data 0 (auth.between (colonIndex + 1) stop)
      if x = x % 2 ^ 16 then .ok { d with port := (x % 2 ^ 16 : ℕ) }
      else
        let d := d.setError .InvalidPortError auth (colonIndex + 1)
        match mode with
        | .StrictMode => .error d
        | .TolerantMode => .ok d
    else .ok d

/-- The host, up to `stop`. -/
def readHost (x : HostParsers) (d : QUrlPrivate) (auth : QString) (start stop : ℕ)
    (mode : ParsingMode) : Except QUrlPrivate QUrlPrivate :=
  let d := (d.setHost x auth start stop mode).1
  match mode with
  | .TolerantMode => .ok d
  | .StrictMode =>
    match d.validateComponent .Host auth start stop with
    | (d, true) => .ok d
    | (d, false) => .error { d with sectionIsPresent := d.sectionIsPresent &&& ~~~Authority }

/-- What is done behind the loop. -/
def clearAuthority (d : QUrlPrivate) : QUrlPrivate :=
  { d with
    sectionIsPresent := d.sectionIsPresent &&& (~~~Authority ||| Host)
    userName := []
    password := []
    host := []
    port := -1 }

/-- `setAuthority`. -/
def setAuthority (x : HostParsers) (d : QUrlPrivate) (auth : QString) (isNull : Bool)
    (start stop : ℕ) (mode : ParsingMode) : QUrlPrivate :=
  let d := { d with sectionIsPresent := d.sectionIsPresent &&& ~~~Authority, port := -1 }
  if start = stop then
    clearAuthority
      (if !isNull then { d with sectionIsPresent := d.sectionIsPresent ||| Host } else d)
  else
    let body : Except QUrlPrivate QUrlPrivate := do
      let (d, start) ← readUserInfo x d auth start stop mode
      let colonIndex := colonIndex auth start stop
      let d ← setPort data d auth colonIndex stop mode
      readHost x d auth start (colonIndex.elim stop (min stop)) mode
    match body with
    | .ok d => d
    | .error d => clearAuthority d

end

end QUrlPrivate
