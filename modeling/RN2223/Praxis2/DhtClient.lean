import RN2223.Lib.Prog
import RN2223.Praxis2.RecvLoop

/-!
# The command line client (client.c)

The calls of one run of the client, from its arguments to its return value. What
`fread` delivers is a stream and the sizes of its pieces; `sendall` and `recvall`
(util.c) are one call each, as they are for the peers.
-/

namespace RN2223.Praxis2
open CMemory

namespace DhtClient

/-- A string of the command line: the bytes in front of the NUL that ends it. -/
structure CString where
  bytes : Bytes
  noNul : 0 ∉ bytes
  deriving DecidableEq

def CString.strlen (s : CString) : ℕ := s.bytes.length

/-- The copy `strdup` makes, the NUL included. -/
def CString.strdup (s : CString) : Bytes := s.bytes ++ [0]

def cmdSet : CString := ⟨['S', 'E', 'T'].map Char.toUInt8, by decide⟩
def cmdGet : CString := ⟨['G', 'E', 'T'].map Char.toUInt8, by decide⟩
def cmdDelete : CString := ⟨['D', 'E', 'L', 'E', 'T', 'E'].map Char.toUInt8, by decide⟩

structure AddrInfo where
  family : ℕ
  addr : Bytes
  deriving DecidableEq, Repr

/-- What `recvall` returns: the block, and the length it stores in `*data_len`. -/
structure Response where
  response : Bytes
  responseLen : ℕ
  deriving DecidableEq, Repr

/-- What stands for a `%` of a format; an address is printed by `get_ip_str`. -/
inductive PrintArg where
  | size (n : ℕ)
  | string (s : CString)
  | ip (p : AddrInfo)

inductive ClientOp where
  | getaddrinfo (hostname port : CString)
  | socket (family : ℕ)
  | connect (fd : Int) (addr : AddrInfo)
  | close (fd : Int)
  | send (fd : Int) (buffer : Bytes)
  | recv (fd : Int)
  | fwrite (bytes : Bytes)
  | fprintf (format : String) (args : List PrintArg)
  | perror (s : String)
  | crash (f : Fault)

/-- What a call answers; `getaddrinfo` answers the empty list when it fails. -/
abbrev ClientRes : ClientOp → Type
  | .getaddrinfo _ _ => List AddrInfo
  | .socket _ => Int
  | .connect _ _ => Int
  | .close _ => Unit
  | .send _ _ => Int
  | .recv _ => Response
  | .fwrite _ => ℕ
  | .fprintf _ _ => Unit
  | .perror _ => Unit
  | .crash _ => Empty

abbrev ClientM : Type → Type := Prog Unit ClientOp ClientRes

variable {α β : Type}

def call (o : ClientOp) : ClientM (ClientRes o) := Prog.sys o

def eval : Except Fault α → ClientM α
  | .ok a => .ret a
  | .error f => .call (.crash f) Empty.elim

/-! ### Standard input -/

/-- `read_stdin` (`client.c:18-47`): the loop is that of `recvall`, and `fread`
answers 0 when nothing is left. Every round before takes at least one byte. -/
def readStdin (stdin : Bytes) (ks : ℕ → ℕ) : Except Fault (Bytes × ℕ) :=
  match h : recvRun stdin ks .eof (stdin.length + 1) with
  | .returned buffer len => .ok (buffer, len)
  | .faulted f => .error f
  | .looping _ _ => absurd (recvRun_eof_rest h) (by omega)

/-! ### The connection -/

def connectLoop : List AddrInfo → ClientM (Option (Int × AddrInfo))
  | [] => return none
  | p :: next => do
    let sock ← call (.socket p.family)
    if sock < 0 then connectLoop next
    else
      call (.fprintf "Attempting connection to %s\n" [.ip p])
      let status ← call (.connect sock p)
      if status < 0 then
        call (.perror "connect")
        call (.close sock)
        connectLoop next
      else return some (sock, p)

/-- `connect_socket` (`client.c:55-102`). -/
def connectSocket (hostname port : CString) : ClientM Int := do
  match ← call (.getaddrinfo hostname port) with
  | [] =>
    call (.perror "getaddrinfo:")
    return -1
  | p :: next =>
    match ← connectLoop (p :: next) with
    | none => return -1
    | some (sock, addr) =>
      call (.fprintf "Connected to %s.\n" [.ip addr])
      return sock

/-! ### Request and response -/

/-- The fields every command sets; `strlen` answers a `size_t`, the field has 16
bits. -/
def keyPacket (key : CString) (flags : UInt8) : Packet :=
  { packetNew with key := key.strdup, keyLen := UInt16.ofNat key.strlen, flags := flags }

def withData (p : Packet) (data : Bytes) (dataLen : ℕ) : Packet :=
  { p with value := data, valueLen := UInt32.ofNat dataLen }

/-- The loop that prints the value of a GET (`client.c:200-212`). -/
def writeValue (rsp : Packet) (written : ℕ) : ClientM Int :=
  if _hmore : written < rsp.valueLen.toNat then
    eval (memcpy (rsp.value.drop written) (rsp.valueLen.toNat - written)) >>= fun bytes =>
    call (.fwrite bytes) >>= fun (n : ℕ) =>
    if hn : n < 1 then
      call (.fprintf "Fwrite to stdout failed! Panic!!\n" []) >>= fun _ => return -1
    else writeValue rsp (written + n)
  else return 0
termination_by rsp.valueLen.toNat - written

/-- From `recvall` to the end of `main` (`client.c:186-216`). -/
def awaitResponse (method : CString) (s : Int) : ClientM Int := do
  let r ← call (.recv s)
  call (.close s)
  match ← eval (packetDecode r.response r.responseLen) with
  | none => return -1
  | some rsp =>
    if !flagSet rsp.flags pktFlagAck then
      call (.fprintf "Server did not acknowledge operation!\n" [])
      return -1
    else if method = cmdGet then writeValue rsp 0
    else return 0

def sendRequest (method : CString) (s : Int) (p : Packet) : ClientM Int := do
  let rawPkt ← eval (packetSerialize p)
  let _ ← call (.send s rawPkt)
  awaitResponse method s

/-- `main` (`client.c:116-216`). -/
def main (stdin : Bytes) (ks : ℕ → ℕ) : List CString → ClientM Int
  | _ :: hostname :: port :: method :: key :: _ => do
    let s ← connectSocket hostname port
    if s < 0 then
      call (.fprintf "Could not connect to host!\n" [])
      return -1
    else if method = cmdSet then
      let (data, dataLen) ← eval (readStdin stdin ks)
      call (.fprintf "%zu bytes read from stdin.\n" [.size dataLen])
      sendRequest method s (withData (keyPacket key pktFlagSet) data dataLen)
    else if method = cmdGet then sendRequest method s (keyPacket key pktFlagGet)
    else if method = cmdDelete then sendRequest method s (keyPacket key pktFlagDel)
    else
      call (.fprintf "Unknown method %s!\n" [.string method])
      return -1
  | _ => do
    call (.fprintf "Not enough args!\n" [])
    return -1

end DhtClient

end RN2223.Praxis2
