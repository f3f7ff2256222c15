import BobUI.Corelib.Text.ByteArrayNumbers

/-!
# Reading a chunked body

`readReplyBodyChunked` of `qhttpnetworkreply.cpp`, and the functions it calls.  A socket is the
octets that are available.  Reading from it does not fail, so that the branches for errors of the
socket are left out.
-/

namespace QHttpNetworkReplyPrivate

inductive ReplyState where
  | NothingDoneState
  | ReadingStatusState
  | ReadingHeaderState
  | ReadingDataState
  | AllDoneState
  | Aborted
deriving DecidableEq, Repr

/-- The fields of a reply that decoding a chunked body reads and writes. -/
structure Reply where
  state : ReplyState
  fragment : QByteArray
  forceConnectionCloseEnabled : Bool
  lastChunkRead : Bool
  currentChunkSize : ℤ
  currentChunkRead : ℤ
  readBufferMaxSize : ℕ
deriving DecidableEq, Repr

/-- A reply, the octets available on its socket, and the buffer that receives its body. -/
structure Channel where
  reply : Reply
  socket : QByteArray
  out : List QByteArray
deriving DecidableEq, Repr

/-- The octets in the buffer. -/
def Channel.body (c : Channel) : QByteArray :=
  c.out.flatten

/-- The conversion of a `qint64` to an `int`. -/
def toInt (x : ℤ) : ℤ :=
  Int.bmod x (2 ^ 32)

def cr : UInt8 := 0x0d

def lf : UInt8 := 0x0a

/-! ### The size of a chunk -/

/-- What `getChunkSize` has read: -1 for the size is that the line is not complete. -/
structure SizeScan where
  bytes : ℤ
  chunkSize : ℤ
  fragment : QByteArray
  socket : QByteArray
deriving DecidableEq, Repr

/-- The size on a line, without the chunk-extension. -/
def sizeOfLine (fragment : QByteArray) : ℤ :=
  QByteArray.toLong (QByteArray.trimmed (fragment.takeWhile (· ≠ 0x3b))) 16

/-- The loop of `getChunkSize`.  A line ends at "\r\n", of which the '\r' can be in the fragment
already. -/
def getChunkSizeLoop (bytesAvailable : ℤ) : QByteArray → QByteArray → ℤ → SizeScan
  | [], fragment, bytes => ⟨bytes, -1, fragment, []⟩
  | c :: rest, fragment, bytes =>
    if bytesAvailable ≤ bytes then ⟨bytes, -1, fragment, c :: rest⟩
    else
      let fragmentSize := toInt fragment.length
      if fragmentSize ≠ 0 ∧ c = cr ∧ rest.head? = some lf then
        ⟨bytes + 2, sizeOfLine fragment, [], rest.tail⟩
      else if fragmentSize > 1 ∧ fragment.getLast? = some cr ∧ c = lf then
        ⟨bytes + 1, sizeOfLine fragment, [], rest⟩
      else getChunkSizeLoop bytesAvailable rest (fragment ++ [c]) (bytes + 1)

def getChunkSize (fragment socket : QByteArray) : SizeScan :=
  getChunkSizeLoop (toInt socket.length) socket fragment 0

/-! ### The data of a chunk -/

/-- What `readReplyBodyRaw` has read. -/
structure RawRead where
  bytes : ℤ
  out : List QByteArray
  socket : QByteArray
deriving DecidableEq, Repr

/-- The loop of `readReplyBodyRaw`.  Every turn reads an octet, or is the last one. -/
def readReplyBodyRawLoop : ℕ → ℤ → ℤ → QByteArray → RawRead
  | 0, _, _, socket => ⟨0, [], socket⟩
  | turns + 1, toBeRead, size, socket =>
    if toBeRead ≤ 0 ∨ socket = [] then ⟨0, [], socket⟩
    else
      let byteData := socket.take toBeRead.toNat
      let socket := socket.drop toBeRead.toNat
      let size := size - byteData.length
      let raw := readReplyBodyRawLoop turns (toInt (min (128 * 1024) (min size socket.length)))
        size socket
      ⟨byteData.length + raw.bytes, byteData :: raw.out, raw.socket⟩

def readReplyBodyRaw (readBufferMaxSize : ℕ) (size : ℤ) (socket : QByteArray) : RawRead :=
  let toBeRead := toInt (min (128 * 1024) (min size socket.length))
  let toBeRead := if readBufferMaxSize ≠ 0 then min toBeRead readBufferMaxSize else toBeRead
  readReplyBodyRawLoop socket.length toBeRead size socket

/-! ### A chunked body -/

/-- Whether the function returns, or goes on to what follows in the turn of its loop. -/
inductive Flow where
  | stop (bytes : ℤ) (c : Channel)
  | go (bytes : ℤ) (c : Channel)

/-- Read the size of the next chunk. -/
def nextChunk (bytes : ℤ) (c : Channel) : Flow :=
  let scan := getChunkSize c.reply.fragment c.socket
  let c := { c with
    reply := { c.reply with fragment := scan.fragment, currentChunkSize := scan.chunkSize }
    socket := scan.socket }
  if scan.chunkSize = -1 then .stop (bytes + scan.bytes) c else .go (bytes + scan.bytes) c

/-- For the first chunk and when we're done with a chunk: read the "\r\n" after the chunk, if data
were read in this call, and the size of the next one. -/
def beginChunk (bytes : ℤ) (c : Channel) : Flow :=
  if !c.reply.lastChunkRead ∧ c.reply.currentChunkSize ≤ c.reply.currentChunkRead then
    let c := { c with reply := { c.reply with currentChunkSize := 0, currentChunkRead := 0 } }
    if bytes ≠ 0 then
      if c.socket.length < 2 then .stop bytes { c with socket := [] }
      else nextChunk (bytes + 2) { c with socket := c.socket.drop 2 }
    else nextChunk bytes c
  else .go bytes c

/-- Try to read the "\r\n" after the last chunk. -/
def endBody (bytes : ℤ) (c : Channel) : ℤ × Channel :=
  let crlf := c.socket.take 2
  let r := { c.reply with lastChunkRead := true }
  let r :=
    if crlf = [cr, lf] ∨ crlf = [lf] then { r with state := .AllDoneState }
    else if crlf = [cr] ∨ crlf = [] then r
    else { r with forceConnectionCloseEnabled := true, state := .AllDoneState }
  (bytes + crlf.length, { c with reply := r, socket := c.socket.drop 2 })

/-- What follows the size line in a turn of the loop: the end of the body, or data and the next
turn. -/
def continueTurn (nextTurn : ℤ → Channel → ℤ × Channel) : Flow → ℤ × Channel
  | .stop bytes c => (bytes, c)
  | .go bytes c =>
    if c.reply.currentChunkSize = 0 ∨ c.reply.lastChunkRead then endBody bytes c
    else
      let raw := readReplyBodyRaw c.reply.readBufferMaxSize
        (c.reply.currentChunkSize - c.reply.currentChunkRead) c.socket
      nextTurn (bytes + raw.bytes)
        ⟨{ c.reply with currentChunkRead := c.reply.currentChunkRead + raw.bytes }, raw.socket,
          c.out ++ raw.out⟩

/-- The loop of `readReplyBodyChunked`.  Every turn reads an octet, or is the last one. -/
def readReplyBodyChunkedLoop : ℕ → ℤ → Channel → ℤ × Channel
  | 0, bytes, c => (bytes, c)
  | turns + 1, bytes, c =>
    if c.socket = [] then (bytes, c)
    else if c.reply.readBufferMaxSize ≠ 0 ∧ bytes > c.reply.readBufferMaxSize then (bytes, c)
    else continueTurn (readReplyBodyChunkedLoop turns) (beginChunk bytes c)

def readReplyBodyChunked (c : Channel) : ℤ × Channel :=
  readReplyBodyChunkedLoop (c.socket.length + 1) 0 c

/-! ### Calls -/

/-- Octets become available, and `QHttpProtocolHandler::_q_receiveReply` reads while the reply
is not complete. -/
def receive (c : Channel) (arrived : QByteArray) : Channel :=
  let c := { c with socket := c.socket ++ arrived }
  if c.reply.state = .ReadingDataState then (readReplyBodyChunked c).2 else c

/-- A reply whose header was read. -/
def started (readBufferMaxSize : ℕ) : Channel :=
  ⟨⟨.ReadingDataState, [], false, false, 0, 0, readBufferMaxSize⟩, [], []⟩

/-- The calls for octets that become available in parts. -/
def receiveAll (readBufferMaxSize : ℕ) (arrivals : List QByteArray) : Channel :=
  arrivals.foldl receive (started readBufferMaxSize)

end QHttpNetworkReplyPrivate
