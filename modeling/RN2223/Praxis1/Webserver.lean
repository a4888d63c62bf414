import RN2223.Lib.CMemory
import RN2223.Lib.Machine

/-!
# The receive loops of the webserver (praxis1/webserver.c)

`main` from the first `recv` on, one step an iteration of a loop or a block
between two of them. `printf` and the answers of the requests are left out; a
buffer also knows which position of the client's stream its first byte has.
-/

namespace RN2223.Praxis1
open CMemory Machine

/-- `BUFFER_SIZE` (`webserver.c:13`). -/
def bufferSize : ℕ := 100

def httpTerminator : Bytes := [13, 10, 13, 10]

def terminatorLength : ℕ := 4

/-- What one `recv` into the main buffer can return. -/
structure Chunk where
  bytes : Bytes
  pos : 1 ≤ bytes.length
  le : bytes.length ≤ bufferSize

/-- `buf_struct` (`webserver.c:20-26`); `origin` is the stream position of the
first byte. -/
structure BufStruct where
  buffer : Bytes
  availableSpace : Int
  usedSpace : Int
  scannerIndex : Int
  reqBeginIndex : Int
  origin : ℕ

/-- `buf_struct_init`; without a positive size the program ends. -/
def bufStructInit (bufSize : Int) : Option BufStruct :=
  if bufSize ≤ 0 then none
  else some ⟨List.replicate bufSize.toNat 0, bufSize, 0, 0, 0, 0⟩

/-- `strncpy` of `n` bytes to offset `k`: a NUL ends the string, the rest is padded. -/
def strncpy (dst : Bytes) (k : ℕ) (src : Bytes) (n : ℕ) : Bytes :=
  let text := (src.take n).takeWhile (· ≠ 0)
  dst.take k ++ text ++ List.replicate (n - text.length) 0 ++ dst.drop (k + n)

/-- `buf_struct_expand` (`webserver.c:52-65`). -/
def bufStructExpand (old : BufStruct) : Option BufStruct :=
  (bufStructInit (old.availableSpace * 2)).map fun new =>
    { new with
      buffer := strncpy new.buffer 0 old.buffer old.usedSpace.toNat,
      usedSpace := old.usedSpace, scannerIndex := old.scannerIndex, origin := old.origin }

/-- `strncmp(buffer + scanner_index, http_terminator, terminator_length) == 0`. -/
def BufStruct.atTerminator (b : BufStruct) : Bool :=
  httpTerminator.isPrefixOf (b.buffer.drop b.scannerIndex.toNat)

def BufStruct.inScan (b : BufStruct) : Prop :=
  b.scannerIndex ≤ b.usedSpace - terminatorLength

instance (b : BufStruct) : Decidable b.inScan := inferInstanceAs (Decidable (_ ≤ _))

def BufStruct.receive (b : BufStruct) (taken : ℕ) (c : Chunk) : BufStruct :=
  { b with
    buffer := c.bytes ++ b.buffer.drop c.bytes.length, usedSpace := c.bytes.length,
    origin := taken }

/-- A call of `process_request`: the stream position of the byte `request` points
to, and `req_len`. -/
structure Call where
  start : ℕ
  reqLen : Int
  deriving DecidableEq, Repr

inductive Control where
  | recv
  | recvScan
  | recvScanned
  | reqRecv
  | reqScan
  | reqScanned
  | reqEnd
  | exited
  deriving DecidableEq, Repr

/-- The variables of `main`, what the client is still going to send, and what
has happened. -/
structure Webserver where
  control : Control
  recvBuf : BufStruct
  recvBufFullyProcessed : Bool
  remaining : Int
  reqBuf : BufStruct
  terminatorPresent2 : Bool
  chunks : List Chunk
  taken : ℕ
  calls : List Call

namespace Webserver

def processRequest (s : Webserver) (start : ℕ) (reqLen : Int) : Webserver :=
  { s with calls := s.calls ++ [⟨start, reqLen⟩] }

/-- `webserver.c:199-221`; at the end of the stream the program ends. -/
def recv (s : Webserver) : Webserver :=
  match s.chunks with
  | [] => { s with control := .exited }
  | c :: chunks =>
    { s with
      control := .recvScan, recvBuf := s.recvBuf.receive s.taken c, remaining := 0,
      chunks := chunks, taken := s.taken + c.bytes.length }

/-- One iteration of the scan loop of the main buffer (`webserver.c:224-256`). -/
def recvScan (s : Webserver) : Webserver :=
  let b := s.recvBuf
  if b.inScan then
    if b.atTerminator then
      if b.scannerIndex = b.reqBeginIndex then { s with control := .exited }
      else
        let s := s.processRequest b.origin (b.scannerIndex - b.reqBeginIndex + terminatorLength)
        if b.scannerIndex = b.usedSpace - terminatorLength then
          { s with
            recvBufFullyProcessed := true,
            recvBuf := { b with scannerIndex := b.scannerIndex + 1 } }
        else
          { s with
            recvBuf := { b with
              reqBeginIndex := b.scannerIndex + terminatorLength,
              scannerIndex := b.scannerIndex + 1 } }
    else { s with recvBuf := { b with scannerIndex := b.scannerIndex + 1 } }
  else { s with control := .recvScanned }

/-- `webserver.c:258-275`. -/
def recvScanned (s : Webserver) : Webserver :=
  if s.recvBufFullyProcessed then { s with control := .recv }
  else
    match bufStructInit (s.recvBuf.availableSpace * 2) with
    | none => { s with control := .exited }
    | some reqBuf =>
      { s with
        control := .reqRecv, terminatorPresent2 := false,
        reqBuf := { reqBuf with
          buffer := strncpy reqBuf.buffer 0 s.recvBuf.buffer s.recvBuf.usedSpace.toNat,
          usedSpace := s.recvBuf.usedSpace, origin := s.recvBuf.origin } }

/-- `webserver.c:277-304`. -/
def reqRecv (s : Webserver) : Webserver :=
  match s.chunks with
  | [] => { s with control := .exited }
  | c :: chunks =>
    let s := { s with
      recvBuf := s.recvBuf.receive s.taken c, chunks := chunks, taken := s.taken + c.bytes.length }
    let space := s.reqBuf.availableSpace - s.reqBuf.usedSpace
    match if space < (c.bytes.length : Int) then bufStructExpand s.reqBuf else some s.reqBuf with
    | none => { s with control := .exited }
    | some b =>
      { s with
        control := .reqScan,
        reqBuf := { b with
          buffer := strncpy b.buffer b.usedSpace.toNat s.recvBuf.buffer s.recvBuf.usedSpace.toNat,
          usedSpace := b.usedSpace + s.recvBuf.usedSpace } }

/-- One iteration of the scan loop of the secondary buffer (`webserver.c:307-337`). -/
def reqScan (s : Webserver) : Webserver :=
  let b := s.reqBuf
  if b.inScan then
    if s.terminatorPresent2 || b.atTerminator then
      if b.scannerIndex = 0 then { s with terminatorPresent2 := true, control := .exited }
      else
        let s := s.processRequest b.origin (b.scannerIndex + terminatorLength + 1)
        let remaining := b.usedSpace - (b.scannerIndex + terminatorLength)
        { s with
          control := .reqScanned, terminatorPresent2 := true, remaining := remaining,
          recvBuf :=
            if remaining = 0 then s.recvBuf
            else { s.recvBuf with
              buffer := strncpy s.recvBuf.buffer 0
                (b.buffer.drop (b.usedSpace - remaining).toNat) remaining.toNat,
              usedSpace := remaining, origin := b.origin + (b.usedSpace - remaining).toNat } }
    -- `scanner_index` is not advanced here
    else s
  else { s with control := .reqScanned }

def step (s : Webserver) : Webserver :=
  match s.control with
  | .recv => s.recv
  | .recvScan => s.recvScan
  | .recvScanned => s.recvScanned
  | .reqRecv => s.reqRecv
  | .reqScan => s.reqScan
  | .reqScanned => { s with control := if s.terminatorPresent2 then .reqEnd else .reqRecv }
  | .reqEnd =>
    if s.remaining ≠ 0 then { s with control := .recvScan }
    else { s with recvBuf := { s.recvBuf with scannerIndex := 0 }, control := .recv }
  | .exited => s

end Webserver

/-- `main` before the first `recv`; the secondary buffer does not exist yet. -/
def webserverStart (chunks : List Chunk) : Webserver where
  control := .recv
  recvBuf := ⟨List.replicate bufferSize 0, bufferSize, 0, 0, 0, 0⟩
  recvBufFullyProcessed := false
  remaining := 0
  reqBuf := ⟨[], 0, 0, 0, 0, 0⟩
  terminatorPresent2 := false
  chunks := chunks
  taken := 0
  calls := []

theorem webserverStart_recvBuf (chunks : List Chunk) :
    bufStructInit bufferSize = some (webserverStart chunks).recvBuf := rfl

def stream (chunks : List Chunk) : Bytes := chunks.flatMap Chunk.bytes

@[simp] theorem stream_nil : stream [] = [] := rfl

@[simp] theorem stream_cons (c : Chunk) (cs : List Chunk) :
    stream (c :: cs) = c.bytes ++ stream cs := List.flatMap_cons

/-- The complete requests of a stream cut at each terminator, as calls of
`process_request`; `start` is where the present request begins and `n` what it
has so far. -/
def requestsFrom (start n : ℕ) : Bytes → List Call
  | [] => []
  | 13 :: 10 :: 13 :: 10 :: rest => ⟨start, n + 4⟩ :: requestsFrom (start + (n + 4)) 0 rest
  | _ :: rest => requestsFrom start (n + 1) rest

/-- `process_request` is called once for each complete request, in order. -/
def ProcessesRequests (chunks : List Chunk) : Prop :=
  Settles Webserver.step Webserver.calls (webserverStart chunks) (requestsFrom 0 0 (stream chunks))

/-- Each `recv` returns one whole request longer than `last`, longer and longer;
what comes behind the last complete one may begin in its chunk, but not with CR LF. -/
def OneRequestEach (last : Int) : List Chunk → Prop
  | [] => True
  | c :: cs =>
    match requestsFrom 0 0 (c.bytes ++ stream cs) with
    | [] => True
    | r :: more => last < r.reqLen ∧
      (r.reqLen = c.bytes.length ∧ OneRequestEach r.reqLen cs ∨
        r.reqLen < c.bytes.length ∧ more = [] ∧ ¬ [13, 10] <+: c.bytes.drop r.reqLen.toNat)

end RN2223.Praxis1
