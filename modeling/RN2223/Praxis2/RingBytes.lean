import RN2223.Praxis2.Framing
import RN2223.Praxis2.RingRun

/-!
# A ring that reads in pieces

The same peers, but a packet comes to a handler the way `server_run` brings it: in any
number of `recv` calls over any number of passes, through the buffers of the client
record. What a record holds and what its connection still has make up the packet.
-/

namespace RN2223.Praxis2
open CMemory

variable {ι : Type}

/-- `up` of a connection has the bytes that `recv` has not returned, `record` has the
client record of each accepted connection. The records in the client lists of `ring`
keep the socket and the mark. -/
structure ByteRing (ι : Type) where
  ring : RingState ι
  record : ℕ → Client

/-- What has nothing to do with reading from a client. -/
def RingEvent.Plain : RingEvent ι → Prop
  | .invoke .. | .resume _ | .sweep _ | .respond _ => True
  | _ => False

namespace ByteRing

/-- Every step is an event of the ring, or a `recv` that completes no packet. A pass over
a client that is marked goes wrong in `rb_can_write`; there are no steps behind that. -/
inductive Step [Stack] [Fintype ι] [DecidableEq ι] {R : LinkedRing ι} (net : RingNet R) :
    ByteRing ι → Option (RingEvent ι) → ByteRing ι → Prop where
  | plain (y : ByteRing ι) (e : RingEvent ι) (x' : RingState ι) (he : e.Plain)
    (hs : RingState.Step net y.ring e x') : Step net y (some e) { y with ring := x' }
  | accept (y : ByteRing ι) (i : ι) (c : ℕ) (fd : Int) (x' : RingState ι)
    (hs : RingState.Step net y.ring (.accept i c fd) x') :
    Step net y (some (.accept i c fd)) ⟨x', Function.update y.record c (newClient fd)⟩
  | hangup (y : ByteRing ι) (i : ι) (cl : Client) (c : ℕ) (x' : RingState ι)
    (hfd : y.ring.fds i cl.socket = some (.down c)) (hmark : cl.state ≠ .remove)
    (hserve : serveClient (y.record c) (fun _ => .closed) = .ok .closed)
    (hs : RingState.Step net y.ring (.hangup i cl) x') :
    Step net y (some (.hangup i cl)) { y with ring := x' }
  | receive (y : ByteRing ι) (i : ι) (cl : Client) (c : ℕ) (l : Link ι) (k n : ℕ) (client : Client)
    (hidle : y.ring.running i = none) (hcl : cl ∈ (y.ring.peer i).srv.clients)
    (hmark : cl.state ≠ .remove) (hfd : y.ring.fds i cl.socket = some (.down c))
    (hc : y.ring.conns c = some l) (hup : l.up ≠ []) (hn : bytesNeeded (y.record c) = .ok n)
    (hserve : serveClient (y.record c) (recvChunk l.up k) = .ok (.kept client)) :
    Step net y none
      { ring := { y.ring with
          conns := Function.update y.ring.conns c
            (some { l with up := l.up.drop (min (k + 1) n) }) }
        record := Function.update y.record c client }
  | deliver (y : ByteRing ι) (i : ι) (cl : Client) (p : Packet) (c : ℕ) (l : Link ι) (k n : ℕ)
    (client : Client) (q : PeerM Unit) (s' : PeerState) (w' : Links ι)
    (hidle : y.ring.running i = none) (hcl : cl ∈ (y.ring.peer i).srv.clients)
    (hmark : cl.state ≠ .remove) (hfd : y.ring.fds i cl.socket = some (.down c))
    (hc : y.ring.conns c = some l) (hup : l.up ≠ []) (hn : bytesNeeded (y.record c) = .ok n)
    (hserve : serveClient (y.record c) (recvChunk l.up k) = .ok (.deliver client (some p)))
    (hrun : (serverDeliverPacket cl.socket p).Until SysOp.Waits (linkCall net i) (y.ring.peer i)
      ((y.ring.links i).setConn c { l with up := l.up.drop (min (k + 1) n) }) q s' w') :
    Step net y (some (.deliver i cl p))
      { ring := { y.ring.after i q s' w' with
          executed := y.ring.executed ++ executes (y.ring.peer i) p }
        record := Function.update y.record c client }

inductive Reachable [Stack] [Fintype ι] [DecidableEq ι] {R : LinkedRing ι} (net : RingNet R) :
    ByteRing ι → Prop where
  | start (record : ℕ → Client) : Reachable net ⟨RingState.start R, record⟩
  | step {y y' : ByteRing ι} (e : Option (RingEvent ι)) (h : Reachable net y)
    (hs : Step net y e y') : Reachable net y'

end ByteRing

/-! ### A packet that comes in pieces -/

section
variable {w : WirePacket} {c : Client} {part rest : Bytes}

/-- Whatever `recv` returns of a packet the server can receive, the record takes it, and
with the last byte the packet is delivered. -/
theorem serveClient_packet [Stack] (hr : w.Receivable) (hc : Holds c part)
    (hbytes : part ++ rest = w.bytes) (hrest : rest ≠ []) (k : ℕ) :
    ∃ n, bytesNeeded c = .ok n ∧ n ≠ 0 ∧
      ((∃ c', serveClient c (recvChunk rest k) = .ok (.kept c') ∧
          rest.drop (min (k + 1) n) ≠ [] ∧ Holds c' (part ++ rest.take (min (k + 1) n))) ∨
        ∃ c' p, serveClient c (recvChunk rest k) = .ok (.deliver c' (some p)) ∧
          rest.drop (min (k + 1) n) = [] ∧ Holds c' [] ∧
          packetDecode w.bytes w.bytes.length = .ok (some p)) := by
  obtain ⟨hr7, hr31, hroom⟩ := hr
  rw [pktHeaderLen] at hr7 hr31 hroom
  have hlen : part.length + rest.length = w.bytes.length := by rw [← hbytes, List.length_append]
  have hdrop : ∀ m, rest.drop m = [] ↔ rest.length ≤ m := fun m => List.drop_eq_nil_iff
  obtain hh | ⟨p, b, hb⟩ := hc
  · have hshort := hh.short
    have hn : 7 - part.length ≠ 0 := by omega
    obtain ⟨c', hserve, hc'⟩ := serveClient_header hh (recvChunk_data rest k hn)
      (by rw [List.length_take]; omega)
    refine ⟨7 - part.length, bytesNeeded_header hh, hn, Or.inl ⟨c', hserve, ?_, hc'⟩⟩
    rw [Ne, hdrop]
    omega
  · have hlong := hb.long
    have hheader : packetDecodeHdr (w.bytes.take 7) pktHeaderLen = .ok (some p) := by
      rw [← hbytes, List.take_append_of_le_length hlong]
      exact hb.header
    obtain ⟨hwl, hdecode, q, hq⟩ := wirePacket_header w hheader
    have hsmall : packetBodySize p < 2^31 := by omega
    have htwice : 2 * packetBodySize p ≤ Stack.room := by omega
    have hpos := List.length_pos_iff.mpr hrest
    have hn : 7 + packetBodySize p - part.length ≠ 0 := by omega
    have hneed := bytesNeeded_body hb
    rw [arrayLen_small (by omega) (by omega)] at hneed
    have hfit : part.length + (rest.take (min (k + 1)
        (7 + packetBodySize p - part.length))).length ≤ 7 + packetBodySize p := by
      rw [List.length_take]
      omega
    refine ⟨_, hneed, hn, ?_⟩
    obtain ⟨hmid, c', hserve, hc'⟩ | ⟨hfull, hdel⟩ :=
      serveClient_body hb hsmall htwice (recvChunk_data rest k hn) hfit
    · refine Or.inl ⟨c', hserve, ?_, hc'⟩
      rw [List.length_take] at hmid
      rw [Ne, hdrop]
      omega
    · rw [List.length_take] at hfull
      have hall : rest.take (min (k + 1) (7 + packetBodySize p - part.length)) = rest :=
        List.take_of_length_le (by omega)
      rw [hall, hbytes, ← hdecode] at hdel
      obtain ⟨c', hserve, hc'⟩ := hdel q hq
      exact Or.inr ⟨c', q, hserve, (hdrop _).mpr (by omega), hc', hq⟩

end

end RN2223.Praxis2
