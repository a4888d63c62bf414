import RN2223.Praxis2.ClientConnect
import RN2223.Praxis2.RingSystem

/-!
# What the client sends (client.c:138-184)

The lengths of key and value go from a `size_t` into fields of 16 and 32 bits
without a check. A request that fits its packet arrives as it was given; any other
is cut off and sent as well.
-/

namespace RN2223.Praxis2
open CMemory

namespace DhtClient

/-! ### Commands that send nothing -/

def ClientOp.sent : ClientOp → Option Bytes
  | .send _ buffer => some buffer
  | _ => none

def Quiet {α : Type} (p : ClientM α) : Prop := p.Only fun o => o.sent = none

section
variable {α β : Type} {W : Type} {h : W → (o : ClientOp) → Option (ClientRes o × W)}

theorem quiet_bind {p : ClientM α} {f : α → ClientM β} (hp : Quiet p) (hf : ∀ a, Quiet (f a)) :
    Quiet (p >>= f) := Prog.only_bind hp hf

theorem quiet_call {o : ClientOp} (ho : o.sent = none) : Quiet (call o) := ⟨ho, fun _ => trivial⟩

theorem quiet_eval (e : Except Fault α) : Quiet (eval e) := by
  cases e with
  | ok a => trivial
  | error f => exact ⟨rfl, fun r => r.elim⟩

theorem sent_quiet {p : ClientM α} (hp : Quiet p) (s : Unit) (w : W) :
    (p.calls h s w).filterMap ClientOp.sent = [] :=
  List.filterMap_eq_nil_iff.mpr (Prog.only_calls hp s w)

end

theorem quiet_connectLoop (addrs : List AddrInfo) : Quiet (connectLoop addrs) := by
  induction addrs with
  | nil => trivial
  | cons p next ih =>
    refine quiet_bind (quiet_call rfl) fun sock => ?_
    split
    · exact ih
    · refine quiet_bind (quiet_call rfl) fun _ => quiet_bind (quiet_call rfl) fun status => ?_
      split
      · exact quiet_bind (quiet_call rfl) fun _ => quiet_bind (quiet_call rfl) fun _ => ih
      · trivial

theorem quiet_connectSocket (hostname port : CString) : Quiet (connectSocket hostname port) := by
  refine quiet_bind (quiet_call rfl) fun addrs => ?_
  cases addrs with
  | nil => exact quiet_bind (quiet_call rfl) fun _ => trivial
  | cons p next =>
    refine quiet_bind (quiet_connectLoop _) fun res => ?_
    cases res with
    | none => trivial
    | some found => exact quiet_bind (quiet_call rfl) fun _ => trivial

theorem quiet_writeValue (rsp : Packet) (n : ℕ) : ∀ written,
    rsp.valueLen.toNat - written ≤ n → Quiet (writeValue rsp written) := by
  induction n with
  | zero =>
    intro written hn
    rw [writeValue, dif_neg (by omega)]
    trivial
  | succ n ih =>
    intro written hn
    rw [writeValue]
    split
    · refine quiet_bind (quiet_eval _) fun bytes => quiet_bind (quiet_call rfl) fun k => ?_
      split
      · exact quiet_bind (quiet_call rfl) fun _ => trivial
      · next hk => exact ih _ (by omega)
    · trivial

theorem quiet_awaitResponse (method : CString) (s : Int) : Quiet (awaitResponse method s) := by
  refine quiet_bind (quiet_call rfl) fun r => quiet_bind (quiet_call rfl) fun _ =>
    quiet_bind (quiet_eval _) fun decoded => ?_
  cases decoded with
  | none => trivial
  | some rsp =>
    show Quiet (if _ then _ else _)
    split
    · exact quiet_bind (quiet_call rfl) fun _ => trivial
    · split
      · exact quiet_writeValue rsp _ 0 (Nat.le_refl _)
      · trivial

/-! ### The packet of a request -/

theorem readStdin_whole (stdin : Bytes) (ks : ℕ → ℕ) (h : stdin.length < 2^63) : ∃ data,
    readStdin stdin ks = .ok (data, stdin.length) ∧ stdin.length ≤ data.length ∧
      data.take stdin.length = stdin := by
  obtain ⟨_, _, _, hrun, -⟩ | ⟨buffer, hrun, hwhole⟩ := recvRun_eof ks h (stdin.length + 1)
  · have hrest := recvRun_eof_rest hrun
    omega
  · have hroom := congrArg List.length hwhole
    rw [List.length_take] at hroom
    refine ⟨buffer, ?_, by omega, hwhole⟩
    unfold readStdin
    split
    · next hret =>
      rw [hrun] at hret
      cases hret
      rfl
    · next hret =>
      rw [hrun] at hret
      cases hret
    · next hret =>
      rw [hrun] at hret
      cases hret

/-- The packet whose buffers are cut off at their length fields. -/
def cutOff (p : Packet) : Packet :=
  { p with key := p.key.take p.keyLen.toNat, value := p.value.take p.valueLen.toNat }

theorem packetSerialize_cutOff {p : Packet} (hdata : flagSet p.flags pktFlagCtrl = false)
    (hkey : p.keyLen.toNat ≤ p.key.length) (hvalue : p.valueLen.toNat ≤ p.value.length) :
    packetSerialize p = .ok (cutOff p).wire := by
  simp only [packetSerialize, Packet.wire, cutOff, hdata, packetSerializeData,
    copyField_take hkey, copyField_take hvalue]
  rfl

theorem strdup_take {key : CString} (h : key.strlen < 2^16) :
    key.strdup.take (UInt16.ofNat key.strlen).toNat = key.bytes := by
  rw [UInt16.toNat_ofNat_of_lt' h]
  exact List.take_left

theorem keyLen_le (key : CString) : (UInt16.ofNat key.strlen).toNat ≤ key.strdup.length := by
  rw [CString.strdup, List.length_append, UInt16.toNat_ofNat']
  exact (Nat.mod_le _ _).trans (Nat.le_add_right _ _)

theorem serialize_withData {key : CString} {flags : UInt8} {data value : Bytes} {len : ℕ}
    (hflags : flagSet flags pktFlagCtrl = false) (hkey : key.strlen < 2^16) (hlen : len < 2^32)
    (hdata : len ≤ data.length) (hvalue : data.take len = value) :
    packetSerialize (withData (keyPacket key flags) data len) = .ok { packetNew with
      flags := flags, keyLen := UInt16.ofNat key.strlen, valueLen := UInt32.ofNat len,
      key := key.bytes, value := value }.wire := by
  have hcut := UInt32.toNat_ofNat_of_lt' hlen
  rw [packetSerialize_cutOff hflags (keyLen_le key) (hcut.le.trans hdata)]
  simp only [cutOff, withData, keyPacket, strdup_take hkey, hcut, hvalue]

theorem serialize_keyPacket (key : CString) {flags : UInt8}
    (hflags : flagSet flags pktFlagCtrl = false) : packetSerialize (keyPacket key flags) =
      .ok { packetNew with
        flags := flags, keyLen := UInt16.ofNat key.strlen,
        key := key.strdup.take (UInt16.ofNat key.strlen).toNat }.wire :=
  packetSerialize_cutOff (p := keyPacket key flags) hflags (keyLen_le key) (Nat.le_refl 0)

def command : Method → CString
  | .get => cmdGet
  | .set => cmdSet
  | .del => cmdDelete

/-- One start of the client; `ks` has the sizes of the pieces `fread` returns. -/
structure Invocation where
  prog : CString
  hostname : CString
  port : CString
  method : Method
  key : CString
  more : List CString
  stdin : Bytes
  ks : ℕ → ℕ

namespace Invocation

variable (x : Invocation)

def argv : List CString := x.prog :: x.hostname :: x.port :: command x.method :: x.key :: x.more

def content : Bytes :=
  match x.method with
  | .set => x.stdin
  | _ => []

def Fits : Prop := x.key.strlen < 2^16 ∧ x.content.length < 2^32

def requested : Packet :=
  { packetNew with
    flags := x.method.flag, keyLen := UInt16.ofNat x.key.strlen,
    valueLen := UInt32.ofNat x.content.length, key := x.key.bytes, value := x.content }

theorem method_data (m : Method) : flagSet m.flag pktFlagCtrl = false := by
  cases m <;> decide

variable {x}

def Fits.request (h : x.Fits) (socket : Int) : ClientRequest where
  socket := socket
  packet := x.requested
  method := x.method
  exact := ⟨(UInt16.toNat_ofNat_of_lt' h.1).symm, (UInt32.toNat_ofNat_of_lt' h.2).symm⟩
  isData := method_data x.method
  oneMethod := by
    show x.method.flag &&& methodMask = x.method.flag
    cases x.method <;> decide
  onWire := by
    have hdata : flagSet x.requested.flags pktFlagCtrl = false := method_data x.method
    rw [Packet.onWire, hdata, if_neg Bool.false_ne_true]
    rfl

end Invocation

/-! ### The exchange with the peer -/

section
variable {t : ClientNet} {w : Sockets AddrInfo} {method : CString} {s : Int} {p : Packet}

theorem crash_returned {α β : Type} (f : Fault) (k : α → ClientM β) :
    ((eval (.error f) >>= k).advance t.answer () w).1.returned = none := rfl

theorem sendRequest_ok {b : Bytes} (hser : packetSerialize p = .ok b) :
    sendRequest method s p = .call (.send s b) fun _ => awaitResponse method s := by
  rw [sendRequest, hser]
  rfl

theorem sendRequest_sent {b : Bytes} (hser : packetSerialize p = .ok b) :
    ((sendRequest method s p).calls t.answer () w).filterMap ClientOp.sent = [b] := by
  rw [sendRequest_ok hser]
  cases hsend : t.sendall b with
  | none =>
    have hanswer : t.answer w (.send s b) = none := by
      show (t.sendall b).map _ = none
      rw [hsend]
      rfl
    rw [Prog.calls_blocked _ () hanswer]
    rfl
  | some r =>
    have hanswer : t.answer w (.send s b) = some (r, w) := by
      show (t.sendall b).map _ = _
      rw [hsend]
      rfl
    rw [Prog.calls_call _ () hanswer]
    exact congrArg (List.cons b) (sent_quiet (quiet_awaitResponse method s) () w)

/-- Something is sent, or the run ends in undefined behaviour. -/
theorem sendRequest_speaks {r : Int}
    (hret : ((sendRequest method s p).advance t.answer () w).1.returned = some r) :
    ((sendRequest method s p).calls t.answer () w).filterMap ClientOp.sent ≠ [] := by
  cases hser : packetSerialize p with
  | ok b =>
    rw [sendRequest_sent hser]
    exact List.cons_ne_nil _ _
  | error f =>
    rw [sendRequest, hser, crash_returned] at hret
    cases hret

end

namespace Invocation

def exchange (x : Invocation) (s : Int) : ClientM Int :=
  match x.method with
  | .set => do
    let (data, dataLen) ← eval (readStdin x.stdin x.ks)
    call (.fprintf "%zu bytes read from stdin.\n" [.size dataLen])
    sendRequest cmdSet s (withData (keyPacket x.key pktFlagSet) data dataLen)
  | .get => sendRequest cmdGet s (keyPacket x.key pktFlagGet)
  | .del => sendRequest cmdDelete s (keyPacket x.key pktFlagDel)

theorem main_argv (x : Invocation) : main x.stdin x.ks x.argv =
    connectSocket x.hostname x.port >>= fun s =>
      if s < 0 then do
        call (.fprintf "Could not connect to host!\n" [])
        return -1
      else x.exchange s := by
  obtain ⟨prog, hostname, port, method, key, more, stdin, ks⟩ := x
  cases method <;> rfl

variable {x : Invocation} {t : ClientNet} {w : Sockets AddrInfo} {s : Int}

theorem exchange_sent (h : x.Fits) :
    ((x.exchange s).calls t.answer () w).filterMap ClientOp.sent = [x.requested.wire] := by
  obtain ⟨prog, hostname, port, method, key, more, stdin, ks⟩ := x
  obtain ⟨hkey, hvalue⟩ := h
  cases method with
  | get =>
    exact sendRequest_sent (serialize_withData (method_data .get) hkey hvalue (Nat.le_refl 0) rfl)
  | del =>
    exact sendRequest_sent (serialize_withData (method_data .del) hkey hvalue (Nat.le_refl 0) rfl)
  | set =>
    obtain ⟨data, hread, hroom, hwhole⟩ :=
      readStdin_whole stdin ks (Nat.lt_trans hvalue (by decide))
    have hser := serialize_withData (method_data .set) hkey hvalue hroom hwhole
    have hprint : t.answer w (.fprintf "%zu bytes read from stdin.\n" [.size stdin.length]) =
        some ((), w) := rfl
    simp only [exchange, hread]
    show (Prog.calls t.answer (.call (.fprintf _ _) fun _ => sendRequest cmdSet s _) () w).filterMap
      _ = _
    rw [Prog.calls_call _ () hprint]
    exact sendRequest_sent hser

theorem exchange_speaks {r : Int}
    (hret : ((x.exchange s).advance t.answer () w).1.returned = some r) :
    ((x.exchange s).calls t.answer () w).filterMap ClientOp.sent ≠ [] := by
  obtain ⟨prog, hostname, port, method, key, more, stdin, ks⟩ := x
  cases method with
  | get => exact sendRequest_speaks hret
  | del => exact sendRequest_speaks hret
  | set =>
    simp only [exchange] at hret ⊢
    cases hread : readStdin stdin ks with
    | error f =>
      rw [hread, crash_returned] at hret
      cases hret
    | ok whole =>
      rw [hread] at hret
      exact sendRequest_speaks (w := w) hret

end Invocation

/-! ### The whole run -/

section
variable (t : ClientNet) (x : Invocation)

def sent : List Bytes :=
  ((main x.stdin x.ks x.argv).calls t.answer () .init).filterMap ClientOp.sent

def result : Option Int := ((main x.stdin x.ks x.argv).advance t.answer () .init).1.returned

/-- What is sent decodes to the request that was asked for; one that does not fit
is not sent, and the client returns an error. -/
structure SendsRequest : Prop where
  decodes : x.Fits → ∀ b ∈ sent t x, ∃ q, packetDecode b b.length = .ok (some q) ∧
    flagSet q.flags pktFlagCtrl = false ∧ q.flags = x.method.flag ∧
    q.key = x.key.bytes ∧ q.value = x.content
  once : x.Fits → t.SomeAccepts → (sent t x).length = 1
  refuses : ¬ x.Fits → sent t x = [] ∧ ∃ r, result t x = some r ∧ r ≠ 0

variable {t x}

theorem run_connected {r : Int} {w : Sockets AddrInfo}
    (hconn : (connectSocket x.hostname x.port).advance t.answer () .init = (.ret r, (), w))
    (hr : 0 ≤ r) :
    sent t x = ((x.exchange r).calls t.answer () w).filterMap ClientOp.sent ∧
    result t x = ((x.exchange r).advance t.answer () w).1.returned := by
  rw [sent, result, x.main_argv, Prog.calls_bind hconn, Prog.advance_bind hconn, Prog.ret_bind,
    if_neg (Int.not_lt.mpr hr), List.filterMap_append,
    sent_quiet (quiet_connectSocket _ _), List.nil_append]
  exact ⟨rfl, rfl⟩

theorem run_refused {r : Int} {w : Sockets AddrInfo}
    (hconn : (connectSocket x.hostname x.port).advance t.answer () .init = (.ret r, (), w))
    (hr : r < 0) : sent t x = [] ∧ result t x = some (-1) := by
  rw [sent, result, x.main_argv, Prog.calls_bind hconn, Prog.advance_bind hconn, Prog.ret_bind,
    if_pos hr, List.filterMap_append, sent_quiet (quiet_connectSocket _ _), List.nil_append]
  exact ⟨rfl, rfl⟩

theorem decodes_request (h : x.Fits) : ∃ q,
    packetDecode x.requested.wire x.requested.wire.length = .ok (some q) ∧
    flagSet q.flags pktFlagCtrl = false ∧ q.flags = x.method.flag ∧
    q.key = x.key.bytes ∧ q.value = x.content := by
  have hdecode := packetDecode_wire fun _ => (h.request 0).exact
  rw [(h.request 0).onWire] at hdecode
  exact ⟨x.requested, hdecode, Invocation.method_data x.method, rfl, rfl, rfl⟩

/-- The client does what it should with every request that fits its packet, and
where it finds no one to send a request to. -/
theorem sendsRequest_iff (t : ClientNet) (x : Invocation) :
    SendsRequest t x ↔ x.Fits ∨ ¬ t.SomeAccepts := by
  obtain ⟨r, w, hconn, hr, -⟩ := ClientNet.connectSocket_right t x.hostname x.port
  constructor
  · intro h
    by_contra hneither
    obtain ⟨hfit, hacc⟩ := not_or.mp hneither
    obtain ⟨hsent, hresult⟩ := run_connected hconn (hr.mpr (not_not.mp hacc))
    obtain ⟨hnone, r', hret, -⟩ := h.refuses hfit
    exact Invocation.exchange_speaks (hresult.symm.trans hret) (hsent.symm.trans hnone)
  · intro h
    by_cases hacc : t.SomeAccepts
    · have hfit : x.Fits := h.resolve_right (not_not.mpr hacc)
      have hsent : sent t x = [x.requested.wire] :=
        (run_connected hconn (hr.mpr hacc)).1.trans (Invocation.exchange_sent hfit)
      refine ⟨fun _ b hb => ?_, fun _ _ => congrArg List.length hsent, fun hnot => absurd hfit hnot⟩
      rw [hsent, List.mem_singleton] at hb
      rw [hb]
      exact decodes_request hfit
    · obtain ⟨hsent, hresult⟩ := run_refused hconn (Int.not_le.mp fun hpos => hacc (hr.mp hpos))
      refine ⟨fun _ b hb => ?_, fun _ hsome => absurd hsome hacc,
        fun _ => ⟨hsent, -1, hresult, by decide⟩⟩
      rw [hsent] at hb
      exact absurd hb List.not_mem_nil

/-- A request that fits reaches the peer as one of those the ring serves. -/
theorem sent_clientRequest (h : x.Fits) (hacc : t.SomeAccepts) : ∃ r : ClientRequest,
    r.method = x.method ∧ r.key = x.key.bytes ∧ r.packet.value = x.content ∧
      sent t x = [r.packet.wire] := by
  obtain ⟨r, w, hconn, hr, -⟩ := ClientNet.connectSocket_right t x.hostname x.port
  have hsent := (run_connected hconn (hr.mpr hacc)).1
  exact ⟨h.request 0, rfl, rfl, rfl, hsent.trans (Invocation.exchange_sent h)⟩

end

/-! ### A key of 65537 bytes -/

def repeated (n : ℕ) : CString :=
  ⟨List.replicate n 97, fun h => absurd (List.eq_of_mem_replicate h) (by decide)⟩

def longGet : Invocation where
  prog := ⟨[99], by decide⟩
  hostname := ⟨[104], by decide⟩
  port := ⟨[49], by decide⟩
  method := .get
  key := repeated 65537
  more := []
  stdin := []
  ks _ := 0

def listening : ClientNet where
  addrs := [⟨2, []⟩]
  socket _ := 3
  connect _ _ := 0
  sendall _ := some 0
  recvall := some ⟨[12, 0, 1, 0, 0, 0, 0, 97], 8⟩
  fwrite bytes := bytes.length

theorem strdup_repeated (n : ℕ) : (repeated (n + 1)).strdup.take 1 = [97] := rfl

theorem serialize_longKey :
    packetSerialize (keyPacket (repeated 65537) pktFlagGet) = .ok [4, 0, 1, 0, 0, 0, 0, 97] := by
  have hflags : flagSet pktFlagGet pktFlagCtrl = false := by decide
  have hlen : UInt16.ofNat (repeated 65537).strlen = 1 := by
    rw [CString.strlen, repeated, List.length_replicate]
    rfl
  have hcut : (repeated 65537).strdup.take (UInt16.toNat 1) = [97] := strdup_repeated 65536
  rw [serialize_keyPacket (repeated 65537) hflags, hlen, hcut]
  rfl

theorem awaitResponse_listening (s : Int) (w : Sockets AddrInfo) :
    ((awaitResponse cmdGet s).advance listening.answer () w).1.returned = some 0 := by
  have hdecode : packetDecode [12, 0, 1, 0, 0, 0, 0, 97] 8 =
      .ok (some { packetNew with flags := 12, keyLen := 1, key := [97] }) := rfl
  have hprinted : writeValue { packetNew with flags := 12, keyLen := 1, key := [97] } 0 =
      .ret 0 := by
    rw [writeValue, dif_neg (by decide)]
    rfl
  have hrecv : listening.answer w (.recv s) = some (⟨[12, 0, 1, 0, 0, 0, 0, 97], 8⟩, w) := rfl
  have hclose : listening.answer w (.close s) =
      some ((), { w with remote := Function.update w.remote s none }) := rfl
  simp only [awaitResponse, call, Prog.sys_bind]
  rw [Prog.advance_call _ () hrecv, Prog.advance_call _ () hclose]
  simp only [hdecode]
  show (Prog.advance _ (writeValue _ 0) () _).1.returned = _
  rw [hprinted]
  rfl

theorem longKey_cutOff : sent listening longGet = [[4, 0, 1, 0, 0, 0, 0, 97]] ∧
    result listening longGet = some 0 ∧ ¬ SendsRequest listening longGet := by
  have hconn : ∃ w, (connectSocket longGet.hostname longGet.port).advance listening.answer () .init =
      (.ret 3, (), w) := ⟨_, rfl⟩
  obtain ⟨w, hconn⟩ := hconn
  obtain ⟨hsent, hresult⟩ := run_connected hconn (by decide)
  have hbytes : sent listening longGet = [[4, 0, 1, 0, 0, 0, 0, 97]] :=
    hsent.trans (sendRequest_sent serialize_longKey)
  refine ⟨hbytes, ?_, fun h => ?_⟩
  · have hanswer : listening.answer w (.send 3 [4, 0, 1, 0, 0, 0, 0, 97]) = some (0, w) := rfl
    have hprog : longGet.exchange 3 = .call (.send 3 [4, 0, 1, 0, 0, 0, 0, 97]) fun _ =>
        awaitResponse cmdGet 3 := sendRequest_ok serialize_longKey
    rw [hresult, hprog, Prog.advance_call _ () hanswer]
    exact awaitResponse_listening 3 w
  · have hlong : ¬ longGet.Fits := by
      rintro ⟨hkey, -⟩
      rw [show longGet.key.strlen = 65537 from List.length_replicate] at hkey
      exact absurd hkey (by decide)
    exact absurd (hbytes.symm.trans (h.refuses hlong).1) (List.cons_ne_nil _ _)

end DhtClient

end RN2223.Praxis2
