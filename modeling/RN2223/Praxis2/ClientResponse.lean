import RN2223.Praxis2.BodyLength
import RN2223.Praxis2.ClientSockets
import RN2223.Praxis2.SentRequest

/-!
# What the client prints (client.c:186-216)

A response counts when it decodes and carries the ACK flag. The value of a GET goes
to standard output in pieces, each as long as `fwrite` makes it, and the client
returns 0 once all of it has gone out.
-/

namespace RN2223.Praxis2
open CMemory

namespace DhtClient

/-! ### Standard output -/

def shown (m : Method) (rsp : Packet) : Bytes :=
  match m with
  | .get => rsp.value
  | _ => []

namespace ClientNet
variable (t : ClientNet)

def putOut : ClientOp → Bytes
  | .fwrite bytes => bytes.take (t.fwrite bytes)
  | _ => []

def stdout {α : Type} (p : ClientM α) (w : Sockets AddrInfo) : Bytes :=
  (p.calls t.answer () w).flatMap t.putOut

/-- `fwrite` takes no more than it is given. -/
def Writes : Prop := ∀ bytes, t.fwrite bytes ≤ bytes.length

/-- The response, if the client takes it for an acknowledgement. -/
def acknowledged : Option Packet :=
  match t.recvall with
  | none => none
  | some r =>
    match packetDecode r.response r.responseLen with
    | .ok (some rsp) => if flagSet rsp.flags pktFlagAck then some rsp else none
    | _ => none

variable {t} {α β : Type} {w w' : Sockets AddrInfo}

theorem stdout_call {o : ClientOp} {k : ClientRes o → ClientM α} {r : ClientRes o}
    (h : t.answer w o = some (r, w')) :
    t.stdout (.call o k) w = t.putOut o ++ t.stdout (k r) w' := by
  rw [stdout, Prog.calls_call _ () h, List.flatMap_cons]
  rfl

theorem stdout_blocked {o : ClientOp} {k : ClientRes o → ClientM α} (h : t.answer w o = none) :
    t.stdout (.call o k) w = t.putOut o := by
  rw [stdout, Prog.calls_blocked _ () h, List.flatMap_cons, List.flatMap_nil, List.append_nil]

theorem stdout_bind {p : ClientM α} {f : α → ClientM β} {a : α}
    (h : p.advance t.answer () w = (.ret a, (), w')) :
    t.stdout (p >>= f) w = t.stdout p w ++ t.stdout (f a) w' := by
  rw [stdout, Prog.calls_bind h, List.flatMap_append]
  rfl

/-! ### The value of a GET -/

/-- The program puts out a part of `v` from the front, and returns 0 if that is
all of it. -/
structure Delivers (t : ClientNet) (v : Bytes) (p : ClientM Int) (w : Sockets AddrInfo) :
    Prop where
  front : t.stdout p w <+: v
  returns : (p.advance t.answer () w).1.returned = some (if t.stdout p w = v then 0 else -1)

theorem delivers_ret (r : Int) (w : Sockets AddrInfo) {v : Bytes}
    (h : r = if v = [] then 0 else -1) : t.Delivers v (.ret r) w := by
  have hnone : t.stdout (.ret r : ClientM Int) w = [] := rfl
  refine ⟨hnone ▸ List.nil_prefix, ?_⟩
  rw [hnone, h]
  simp only [Prog.advance_ret, Prog.returned, eq_comm]

theorem Delivers.call {u v : Bytes} {o : ClientOp} {k : ClientRes o → ClientM Int}
    {r : ClientRes o} (h : t.answer w o = some (r, w')) (hout : t.putOut o = u)
    (hk : t.Delivers v (k r) w') : t.Delivers (u ++ v) (.call o k) w where
  front := by
    rw [stdout_call h, hout]
    exact (List.prefix_append_right_inj u).mpr hk.front
  returns := by
    rw [Prog.advance_call _ () h, stdout_call h, hout, hk.returns]
    simp only [List.append_cancel_left_eq]

theorem writeValue_more {rsp : Packet} {v : Bytes} {written : ℕ}
    (hv : rsp.value.drop written = v) (hlen : v.length = rsp.valueLen.toNat - written)
    (hmore : written < rsp.valueLen.toNat) : writeValue rsp written = .call (.fwrite v) fun n =>
      if n < 1 then .call (.fprintf "Fwrite to stdout failed! Panic!!\n" []) fun _ => .ret (-1)
      else writeValue rsp (written + n) := by
  rw [writeValue, dif_pos hmore, hv, memcpy_exact hlen]
  rfl

theorem writeValue_delivers (ht : t.Writes) {rsp : Packet} {v : Bytes} {written : ℕ}
    (hv : rsp.value.drop written = v) (hlen : v.length = rsp.valueLen.toNat - written) :
    t.Delivers v (writeValue rsp written) w := by
  induction hn : v.length using Nat.strong_induction_on generalizing v written with
  | _ n ih =>
    by_cases hmore : written < rsp.valueLen.toNat
    · have hwrite : t.answer w (.fwrite v) = some (t.fwrite v, w) := rfl
      rw [writeValue_more hv hlen hmore]
      by_cases hstuck : t.fwrite v < 1
      · have hne : v ≠ [] := fun he => by
          rw [he, List.length_nil] at hlen
          omega
        have hout : t.putOut (.fwrite v) = [] := by
          rw [putOut, Nat.lt_one_iff.mp hstuck, List.take_zero]
        have hprint : t.answer w (.fprintf "Fwrite to stdout failed! Panic!!\n" []) =
            some ((), w) := rfl
        refine Delivers.call hwrite hout ?_
        rw [if_pos hstuck]
        exact Delivers.call hprint rfl (delivers_ret (-1) w (if_neg hne).symm)
      · have hle := ht v
        have hrest : t.Delivers (v.drop (t.fwrite v)) (writeValue rsp (written + t.fwrite v)) w :=
          ih (v.drop (t.fwrite v)).length (by rw [List.length_drop]; omega)
            (by rw [← List.drop_drop, hv]) (by rw [List.length_drop]; omega) rfl
        refine (congrArg (t.Delivers · _ w) (List.take_append_drop (t.fwrite v) v)).mp
          (Delivers.call hwrite rfl ?_)
        rw [if_neg hstuck]
        exact hrest
    · have hnil : v = [] := List.length_eq_zero_iff.mp (by omega)
      rw [writeValue, dif_neg hmore]
      exact delivers_ret 0 w (if_pos hnil).symm

/-! ### The response -/

/-- Only what the response shows is put out, and 0 is returned when all of it is. -/
structure Reports (t : ClientNet) (m : Method) (p : ClientM Int) (w : Sockets AddrInfo) :
    Prop where
  front : t.stdout p w <+: t.acknowledged.elim [] (shown m)
  success : (p.advance t.answer () w).1.returned = some 0 ↔
    ∃ rsp, t.acknowledged = some rsp ∧ t.stdout p w = shown m rsp

variable {m : Method}

theorem Reports.call {o : ClientOp} {k : ClientRes o → ClientM Int} {r : ClientRes o}
    (h : t.answer w o = some (r, w')) (hout : t.putOut o = []) (hk : t.Reports m (k r) w') :
    t.Reports m (.call o k) w := by
  refine ⟨?_, ?_⟩
  all_goals rw [stdout_call h, hout, List.nil_append]
  · exact hk.front
  · rw [Prog.advance_call _ () h]
    exact hk.success

theorem Delivers.reports {rsp : Packet} {p : ClientM Int} (hack : t.acknowledged = some rsp)
    (h : t.Delivers (shown m rsp) p w) : t.Reports m p w where
  front := by
    rw [hack]
    exact h.front
  success := by
    rw [h.returns, hack, Option.some.injEq]
    simp only [Option.some.injEq, exists_eq_left']
    split
    · next hall => exact iff_of_true rfl hall
    · next hpart => exact iff_of_false (by decide) hpart

theorem reports_failed {p : ClientM Int} (hack : t.acknowledged = none)
    (hout : t.stdout p w = []) (hret : (p.advance t.answer () w).1.returned = none ∨
      (p.advance t.answer () w).1.returned = some (-1)) : t.Reports m p w where
  front := by
    rw [hout]
    exact List.nil_prefix
  success := by
    refine iff_of_false (fun h => ?_) fun ⟨_, h, _⟩ => Option.some_ne_none _ (h.symm.trans hack)
    rw [h] at hret
    rcases hret with hret | hret <;> cases hret

theorem decoded_value {b : Bytes} {n : ℕ} {rsp : Packet} (h : packetDecode b n = .ok (some rsp)) :
    rsp.value.length = rsp.valueLen.toNat := by
  obtain ⟨hexact, honWire, -⟩ := packetDecode_eq_some.mp h
  by_cases hc : flagSet rsp.flags pktFlagCtrl = true
  · rw [← honWire, Packet.onWire, if_pos hc]
    rfl
  · exact (hexact (Bool.eq_false_of_not_eq_true hc)).value

/-- What comes after the response. -/
def judge (method : CString) : Option Packet → ClientM Int
  | none => .ret (-1)
  | some rsp =>
    if !flagSet rsp.flags pktFlagAck then
      .call (.fprintf "Server did not acknowledge operation!\n" []) fun _ => .ret (-1)
    else if method = cmdGet then writeValue rsp 0
    else .ret 0

theorem awaitResponse_eq (method : CString) (s : Int) : awaitResponse method s =
    .call (.recv s) fun r => .call (.close s) fun _ =>
      eval (packetDecode r.response r.responseLen) >>= judge method := by
  rfl

theorem judge_reports (ht : t.Writes) (m : Method) {r : Response} (hrecv : t.recvall = some r)
    {res : Option Packet} (hdec : packetDecode r.response r.responseLen = .ok res) (w : Sockets AddrInfo) :
    t.Reports m (judge (command m) res) w := by
  cases res with
  | none =>
    have hack : t.acknowledged = none := by simp only [acknowledged, hrecv, hdec]
    exact reports_failed hack rfl (Or.inr rfl)
  | some rsp =>
    by_cases hflag : flagSet rsp.flags pktFlagAck = true
    · have hack : t.acknowledged = some rsp := by
        simp only [acknowledged, hrecv, hdec, if_pos hflag]
      refine Delivers.reports hack ?_
      simp only [judge, hflag, Bool.not_true, Bool.false_eq_true, if_false]
      cases m with
      | get => exact writeValue_delivers ht List.drop_zero (decoded_value hdec)
      | set => exact delivers_ret 0 w (if_pos rfl).symm
      | del => exact delivers_ret 0 w (if_pos rfl).symm
    · have hack : t.acknowledged = none := by
        simp only [acknowledged, hrecv, hdec, if_neg hflag]
      have hprint : t.answer w (.fprintf "Server did not acknowledge operation!\n" []) =
          some ((), w) := rfl
      simp only [judge, Bool.not_eq_true _ ▸ hflag, Bool.not_false, if_true]
      exact Reports.call hprint rfl (reports_failed hack rfl (Or.inr rfl))

theorem awaitResponse_reports (ht : t.Writes) (m : Method) (s : Int) (w : Sockets AddrInfo) :
    t.Reports m (awaitResponse (command m) s) w := by
  rw [awaitResponse_eq]
  cases hrecv : t.recvall with
  | none =>
    have hwait : t.answer w (.recv s) = none := congrArg (Option.map fun r => (r, w)) hrecv
    have hack : t.acknowledged = none := by simp only [acknowledged, hrecv]
    refine reports_failed hack (stdout_blocked hwait) (Or.inl ?_)
    rw [Prog.advance_blocked _ () hwait]
    rfl
  | some r =>
    have hread : t.answer w (.recv s) = some (r, w) := congrArg (Option.map fun r => (r, w)) hrecv
    have hclose : t.answer w (.close s) =
        some ((), { w with remote := Function.update w.remote s none }) := rfl
    refine Reports.call hread rfl (Reports.call hclose rfl ?_)
    cases hdec : packetDecode r.response r.responseLen with
    | ok res => exact judge_reports ht m hrecv hdec _
    | error f =>
      have hack : t.acknowledged = none := by simp only [acknowledged, hrecv, hdec]
      exact reports_failed hack rfl (Or.inl rfl)

/-- The response is awaited once `sendall` is done, whatever that returned. -/
theorem send_reports (ht : t.Writes) (m : Method) (s : Int) (b : Bytes) (w : Sockets AddrInfo) :
    let p : ClientM Int := .call (.send s b) fun _ => awaitResponse (command m) s
    t.stdout p w <+: t.acknowledged.elim [] (shown m) ∧
    ((p.advance t.answer () w).1.returned = some 0 ↔ (t.sendall b).isSome ∧
      ∃ rsp, t.acknowledged = some rsp ∧ t.stdout p w = shown m rsp) := by
  intro p
  cases hsend : t.sendall b with
  | none =>
    have hblocked : t.answer w (.send s b) = none := congrArg (Option.map fun r => (r, w)) hsend
    have hout : t.stdout p w = [] := stdout_blocked hblocked
    have hret : (p.advance t.answer () w).1.returned = none := by
      rw [Prog.advance_blocked _ () hblocked]
      rfl
    rw [hout, hret]
    exact ⟨List.nil_prefix, iff_of_false (by decide) fun h => Bool.false_ne_true h.1⟩
  | some r =>
    have hsent : t.answer w (.send s b) = some (r, w) := congrArg (Option.map fun r => (r, w)) hsend
    have hp : t.Reports m p w := Reports.call hsent rfl (awaitResponse_reports ht m s w)
    exact ⟨hp.front, hp.success.trans (and_iff_right rfl).symm⟩

/-! ### Nothing else is put out -/

def Mute (t : ClientNet) (p : ClientM α) : Prop := p.Only fun o => t.putOut o = []

theorem stdout_mute {p : ClientM α} (h : t.Mute p) (w : Sockets AddrInfo) : t.stdout p w = [] :=
  List.flatMap_eq_nil_iff.mpr (Prog.only_calls h () w)

theorem mute_bind {p : ClientM α} {f : α → ClientM β} (hp : t.Mute p) (hf : ∀ a, t.Mute (f a)) :
    t.Mute (p >>= f) := Prog.only_bind hp hf

theorem mute_call {o : ClientOp} (ho : t.putOut o = []) : t.Mute (call o) := ⟨ho, fun _ => trivial⟩

theorem mute_connectLoop (t : ClientNet) (addrs : List AddrInfo) : t.Mute (connectLoop addrs) := by
  induction addrs with
  | nil => trivial
  | cons p next ih =>
    refine mute_bind (mute_call rfl) fun sock => ?_
    split
    · exact ih
    · refine mute_bind (mute_call rfl) fun _ => mute_bind (mute_call rfl) fun status => ?_
      split
      · exact mute_bind (mute_call rfl) fun _ => mute_bind (mute_call rfl) fun _ => ih
      · trivial

theorem mute_connectSocket (t : ClientNet) (hostname port : CString) :
    t.Mute (connectSocket hostname port) := by
  refine mute_bind (mute_call rfl) fun addrs => ?_
  cases addrs with
  | nil => exact mute_bind (mute_call rfl) fun _ => trivial
  | cons p next =>
    refine mute_bind (mute_connectLoop t _) fun res => ?_
    cases res with
    | none => trivial
    | some found => exact mute_bind (mute_call rfl) fun _ => trivial

end ClientNet

/-! ### The whole run -/

/-- One packet goes out, cut off at the lengths in its header. -/
theorem Invocation.exchange_send {x : Invocation} (h : x.content.length < 2^63) (s : Int)
    (t : ClientNet) (w : Sockets AddrInfo) : ∃ b,
    let p : ClientM Int := .call (.send s b) fun _ => awaitResponse (command x.method) s
    ((x.exchange s).calls t.answer () w).filterMap ClientOp.sent = [b] ∧
    t.stdout (x.exchange s) w = t.stdout p w ∧
    (x.exchange s).advance t.answer () w = p.advance t.answer () w := by
  obtain ⟨prog, hostname, port, method, key, more, stdin, ks⟩ := x
  cases method with
  | get =>
    have hser := serialize_keyPacket key (method_data .get)
    have hget : exchange ⟨prog, hostname, port, .get, key, more, stdin, ks⟩ s =
        sendRequest cmdGet s (keyPacket key Method.get.flag) := rfl
    rw [hget]
    refine ⟨_, sendRequest_sent hser, ?_⟩
    rw [sendRequest_ok hser]
    exact ⟨rfl, rfl⟩
  | del =>
    have hser := serialize_keyPacket key (method_data .del)
    have hdel : exchange ⟨prog, hostname, port, .del, key, more, stdin, ks⟩ s =
        sendRequest cmdDelete s (keyPacket key Method.del.flag) := rfl
    rw [hdel]
    refine ⟨_, sendRequest_sent hser, ?_⟩
    rw [sendRequest_ok hser]
    exact ⟨rfl, rfl⟩
  | set =>
    obtain ⟨data, hread, hroom, -⟩ := readStdin_whole stdin ks h
    have hcut : (UInt32.ofNat stdin.length).toNat ≤ data.length := by
      rw [UInt32.toNat_ofNat']
      exact (Nat.mod_le _ _).trans hroom
    have hser := packetSerialize_cutOff (p := withData (keyPacket key pktFlagSet) data stdin.length)
      (method_data .set) (keyLen_le key) hcut
    have hprint : t.answer w (.fprintf "%zu bytes read from stdin.\n" [.size stdin.length]) =
        some ((), w) := rfl
    have hset : exchange ⟨prog, hostname, port, .set, key, more, stdin, ks⟩ s =
        .call (.fprintf "%zu bytes read from stdin.\n" [.size stdin.length]) fun _ =>
          sendRequest cmdSet s (withData (keyPacket key pktFlagSet) data stdin.length) := by
      simp only [exchange, hread]
      rfl
    rw [hset]
    refine ⟨(cutOff (withData (keyPacket key pktFlagSet) data stdin.length)).wire, ?_, ?_, ?_⟩
    · rw [Prog.calls_call _ () hprint]
      exact sendRequest_sent hser
    · rw [t.stdout_call hprint, sendRequest_ok hser]
      rfl
    · rw [Prog.advance_call _ () hprint, sendRequest_ok hser]
      rfl

section
variable (t : ClientNet) (x : Invocation)

def printed : Bytes := t.stdout (main x.stdin x.ks x.argv) .init

variable {t x}

theorem main_silent {r : Int} {w : Sockets AddrInfo}
    (hconn : (connectSocket x.hostname x.port).advance t.answer () .init = (.ret r, (), w)) :
    printed t x = if r < 0 then [] else t.stdout (x.exchange r) w := by
  rw [printed, x.main_argv, ClientNet.stdout_bind hconn,
    ClientNet.stdout_mute (ClientNet.mute_connectSocket t _ _), List.nil_append]
  split
  · have hmute : t.Mute (call (.fprintf "Could not connect to host!\n" []) >>= fun _ => return -1) :=
      ClientNet.mute_bind (ClientNet.mute_call rfl) fun _ => trivial
    exact ClientNet.stdout_mute hmute w
  · rfl

theorem connected_reports (ht : t.Writes) (hx : x.content.length < 2^63) (hacc : t.SomeAccepts) :
    ∃ b, sent t x = [b] ∧ printed t x <+: t.acknowledged.elim [] (shown x.method) ∧
      (result t x = some 0 ↔ (t.sendall b).isSome ∧
        ∃ rsp, t.acknowledged = some rsp ∧ printed t x = shown x.method rsp) := by
  obtain ⟨r, w, hconn, hr, -⟩ := ClientNet.connectSocket_right t x.hostname x.port
  obtain ⟨hsent, hresult⟩ := run_connected hconn (hr.mpr hacc)
  obtain ⟨b, hb, hout, hrun⟩ := Invocation.exchange_send hx r t w
  refine ⟨b, hsent.trans hb, ?_⟩
  rw [main_silent hconn, if_neg (Int.not_lt.mpr (hr.mpr hacc)), hresult, hrun, hout]
  exact ClientNet.send_reports ht x.method r b w

theorem unconnected_reports (hacc : ¬ t.SomeAccepts) :
    result t x = some (-1) ∧ printed t x = [] := by
  obtain ⟨r, w, hconn, hr, -⟩ := ClientNet.connectSocket_right t x.hostname x.port
  have hneg : r < 0 := Int.not_le.mp fun hpos => hacc (hr.mp hpos)
  exact ⟨(run_refused hconn hneg).2, (main_silent hconn).trans (if_pos hneg)⟩

theorem acknowledged_received {rsp : Packet} (h : t.acknowledged = some rsp) :
    ∃ r, t.recvall = some r ∧ rsp.wire <+: r.response ∧ rsp.Passes r.responseLen := by
  unfold ClientNet.acknowledged at h
  split at h
  · cases h
  · next r hrecv =>
    split at h
    · next decoded hdec =>
      split at h
      · cases h
        obtain ⟨-, -, hwire, hpass⟩ := packetDecode_eq_some.mp hdec
        exact ⟨r, hrecv, hwire, hpass⟩
      · cases h
    · cases h

/-- The client puts out what was acknowledged or a part of it, and returns 0 if and
only if it was connected, could send its request, and all of it was put out. What was
acknowledged stands at the front of the block from `recvall`; up to seven bytes of it
may lie behind those that were received. -/
theorem client_reports (ht : t.Writes) (hx : x.content.length < 2^63) :
    printed t x <+: t.acknowledged.elim [] (shown x.method) ∧
    (result t x = some 0 ↔ t.SomeAccepts ∧ (∀ b ∈ sent t x, (t.sendall b).isSome) ∧
      ∃ rsp, t.acknowledged = some rsp ∧ printed t x = shown x.method rsp) ∧
    ∀ rsp, t.acknowledged = some rsp →
      ∃ r, t.recvall = some r ∧ rsp.wire <+: r.response ∧ rsp.Passes r.responseLen := by
  rw [← and_assoc]
  refine ⟨?_, fun _ => acknowledged_received⟩
  by_cases hacc : t.SomeAccepts
  · obtain ⟨b, hsent, hfront, hsuccess⟩ := connected_reports ht hx hacc
    refine ⟨hfront, ?_⟩
    rw [hsuccess, hsent]
    simp only [List.mem_singleton, forall_eq, hacc, true_and]
  · obtain ⟨hresult, hout⟩ := unconnected_reports (x := x) hacc
    rw [hresult, hout]
    exact ⟨List.nil_prefix, iff_of_false (by decide) fun h => hacc h.1⟩

/-- A peer answers a GET with two bytes, of which the second is lost; `fwrite` takes
one at a time. -/
def answering : ClientNet :=
  { listening with
    recvall := some ⟨[12, 0, 0, 0, 0, 0, 2, 104, 105], 8⟩, fwrite := min 1 ∘ List.length }

def shortGet : Invocation := { longGet with key := repeated 1 }

theorem client_reports_shortGet : printed answering shortGet <+: [104, 105] ∧
    (result answering shortGet = some 0 ↔ answering.SomeAccepts ∧
      (∀ b ∈ sent answering shortGet, (answering.sendall b).isSome) ∧
      ∃ rsp, answering.acknowledged = some rsp ∧
        printed answering shortGet = shown .get rsp) ∧
    ∀ rsp, answering.acknowledged = some rsp →
      ∃ r, answering.recvall = some r ∧ rsp.wire <+: r.response ∧ rsp.Passes r.responseLen := by
  have hwrites : answering.Writes := fun bytes => Nat.min_le_right 1 bytes.length
  exact client_reports (x := shortGet) hwrites (by decide)

end

end DhtClient

end RN2223.Praxis2
