import RN2223.Praxis2.ClientResponse
import RN2223.Praxis2.RingRun

/-!
# Clients and ring together

What the clients write to standard output while the peers of a ring answer them.
The value of a GET has gone through `strncpy` on its way, which puts zeros behind
the first zero byte.
-/

namespace RN2223.Praxis2
open CMemory DhtClient

/-- What a command shows when `live` is the value of its key. -/
def Method.answer (m : Method) (live : Option Bytes) : Bytes :=
  match m with
  | .get => live.elim [] zeroFrom
  | _ => []

theorem shown_ack (r : OwnRequest) (live : Option Bytes) :
    shown r.method (r.ack live) = r.method.answer live := by
  cases hm : r.method with
  | get => cases live <;> simp [shown, Method.answer, OwnRequest.ack, hm, packetNew]
  | set => rfl
  | del => rfl

theorem ack_flag (r : OwnRequest) (live : Option Bytes) :
    flagSet (r.ack live).flags pktFlagAck = true := by
  have hflags : (r.ack live).flags = r.method.flag ||| pktFlagAck := by
    unfold OwnRequest.ack
    cases r.method with
    | get => cases live <;> simp [Method.flag]
    | set => simp [Method.flag]
    | del => simp [Method.flag]
  rw [hflags]
  cases r.method <;> decide

theorem ack_onWire (r : OwnRequest) (live : Option Bytes) : (r.ack live).onWire = r.ack live := by
  rw [Packet.onWire, r.ack_isData, if_neg Bool.false_ne_true]
  unfold OwnRequest.ack
  cases r.method with
  | get => cases live <;> rfl
  | set => rfl
  | del => rfl

/-- The bytes that were received stand at the front of the block. -/
def DhtClient.Response.Holds (r : Response) (b : Bytes) : Prop :=
  b <+: r.response ∧ r.responseLen = b.length

theorem acknowledged_ack {t : ClientNet} (r : OwnRequest) {live : Option Bytes}
    (hlen : ∀ v, live = some v → v.length < 2^32) {rsp : Response} (ht : t.recvall = some rsp)
    (hrsp : rsp.Holds (r.ack live).wire) : t.acknowledged = some (r.ack live) := by
  have hexact := r.ack_exact hlen
  have hpass : (r.ack live).Passes rsp.responseLen := by
    rw [hrsp.2]
    exact passes_wire fun _ => hexact
  have hdec := packetDecode_eq_some.mpr ⟨fun _ => hexact, ack_onWire r live, hrsp.1, hpass⟩
  simp only [ClientNet.acknowledged, ht, hdec, ack_flag, if_true]

theorem replayed_liveValue (rs : List ClientRequest) :
    replayed ClientRequest.apply (fun _ => none) rs = liveValue (rs.map fun r => r.toOwnRequest) := by
  induction rs using List.reverseRecOn with
  | nil => rfl
  | append_singleton rs r ih =>
    rw [replayed_append, ih, List.map_append, List.map_singleton, liveValue_append]
    rfl

/-- The value of a key after the first `n` requests of the order. -/
def valueAfter (order : List (ℕ × ClientRequest)) (n : ℕ) (key : Bytes) : Option Bytes :=
  liveValue ((order.take n).map fun x => x.2.toOwnRequest) key

theorem replay_valueAfter (order : List (ℕ × ClientRequest)) {n k : ℕ} {r : ClientRequest}
    (h : order[n]? = some (k, r)) :
    (replay ClientRequest.apply (fun _ => none) (order.map Prod.snd))[n]? =
      some (r.ack (valueAfter order n r.key)).wire := by
  rw [replay_getElem?, List.getElem?_map, h, ← List.map_take, replayed_liveValue, List.map_map]
  rfl

variable {ι : Type} [Fintype ι] [DecidableEq ι] {R : LinkedRing ι} {net : RingNet R}

/-- Clients that get their answers from the ring report, in one order of all the
requests that agrees with real time, the values their keys then have. -/
theorem ring_client_reports {x : RingState ι} (h : RingState.Reachable net x) : ∃ order,
    Linearizes ClientRequest.apply (fun _ => none) x.history order ∧
    ∀ (v : Invocation) (hv : v.Fits) (k : ℕ) (fd : Int) (ret : Bytes) (t : ClientNet)
      (rsp : Response),
      .invoke k (hv.request fd) ∈ x.history → .respond k ret ∈ x.history →
      t.recvall = some rsp → rsp.Holds ret → t.Writes → ∃ n, order[n]? = some (k, hv.request fd) ∧
        printed t v <+: v.method.answer (valueAfter order n v.key.bytes) ∧
        (result t v = some 0 ↔ t.SomeAccepts ∧ (t.sendall v.requested.wire).isSome ∧
          printed t v = v.method.answer (valueAfter order n v.key.bytes)) := by
  obtain ⟨W, hinv⟩ := RingState.reachable_inv h
  have hobj := hinv.ok.obj
  have hlin := AtomicObject.reachable_linearizes hobj
  rw [hinv.history] at hlin
  refine ⟨W.obj.order, hlin, fun v hv k fd ret t rsp hinvoke hrespond hrecv hholds ht => ?_⟩
  obtain ⟨n, r, hn, hret⟩ := hlin.answered k ret hrespond
  obtain rfl : hv.request fd = r := by
    have hr := hlin.invoked k r (List.mem_of_getElem? hn)
    rw [← hinv.history] at hr hinvoke
    exact AtomicObject.reachable_invoke_unique hobj hinvoke hr
  refine ⟨n, hn, ?_⟩
  rw [replay_valueAfter _ hn, Option.some.injEq] at hret
  have hack : t.acknowledged = some ((hv.request fd).ack (valueAfter W.obj.order n v.key.bytes)) :=
    acknowledged_ack _ (fun _ => liveValue_short _) hrecv (hret ▸ hholds)
  have hshown : shown v.method ((hv.request fd).ack (valueAfter W.obj.order n v.key.bytes)) =
      v.method.answer (valueAfter W.obj.order n v.key.bytes) :=
    shown_ack (hv.request fd).toOwnRequest _
  by_cases hacc : t.SomeAccepts
  · obtain ⟨b, hb, hfront, hsuccess⟩ :=
      connected_reports (x := v) ht (Nat.lt_trans hv.2 (by decide)) hacc
    obtain rfl : b = v.requested.wire := by
      obtain ⟨s, w, hconn, hs, -⟩ := ClientNet.connectSocket_right t v.hostname v.port
      have hsent := (run_connected hconn (hs.mpr hacc)).1.trans (Invocation.exchange_sent hv)
      exact List.singleton_inj.mp (hb.symm.trans hsent)
    rw [hack, Option.elim_some, hshown] at hfront
    refine ⟨hfront, hsuccess.trans ?_⟩
    simp only [hack, Option.some.injEq, exists_eq_left', hacc, true_and, hshown]
  · obtain ⟨hresult, hout⟩ := unconnected_reports (x := v) hacc
    rw [hresult, hout]
    exact ⟨List.nil_prefix, iff_of_false (by decide) fun h => hacc h.1⟩

/-! ### A client that asks the peer which claims its key -/

/-! ### Two clients -/

def setHiCall : Invocation :=
  { shortGet with method := .set, key := ⟨[150], by decide⟩, stdin := [104, 105] }

def getHiCall : Invocation := { shortGet with key := ⟨[150], by decide⟩ }

theorem setHiCall_fits : setHiCall.Fits := ⟨by decide, by decide⟩

theorem getHiCall_fits : getHiCall.Fits := ⟨by decide, by decide⟩

/-- The client receives `b`, in a block of 1024 bytes. -/
def hears (b : Bytes) : ClientNet :=
  { answering with recvall := some ⟨b ++ List.replicate (1024 - b.length) 0, b.length⟩ }

/-- One client has set a value, another one gets it from the peer before. -/
theorem ring_client_reports_hiRead : ∃ order,
    Linearizes ClientRequest.apply (fun _ => none) hiRead.history order ∧
    (∃ n : ℕ, order[n]? = some (0, setHi) ∧
      let t := hears (setHi.ack none).wire
      printed t setHiCall <+: [] ∧ (result t setHiCall = some 0 ↔ t.SomeAccepts ∧
        (t.sendall setHiCall.requested.wire).isSome ∧ printed t setHiCall = [])) ∧
    ∃ n : ℕ, order[n]? = some (1, getHi) ∧
      let t := hears hiAck
      printed t getHiCall <+: Method.get.answer (valueAfter order n [150]) ∧
      (result t getHiCall = some 0 ↔ t.SomeAccepts ∧
        (t.sendall getHiCall.requested.wire).isSome ∧
        printed t getHiCall = Method.get.answer (valueAfter order n [150])) := by
  obtain ⟨order, hlin, hclients⟩ := ring_client_reports hiRead_reachable
  have hwrites : ∀ b, (hears b).Writes := fun _ bytes => Nat.min_le_right 1 bytes.length
  have hholds : ∀ b : Bytes, Response.Holds ⟨b ++ List.replicate (1024 - b.length) 0, b.length⟩ b :=
    fun b => ⟨List.prefix_append _ _, rfl⟩
  have hhistory : hiRead.history = [.invoke 0 (setHiCall_fits.request 4),
      .respond 0 (setHi.ack none).wire, .invoke 1 (getHiCall_fits.request 4),
      .respond 1 hiAck] := rfl
  refine ⟨order, hlin, ?_, ?_⟩
  · refine hclients setHiCall setHiCall_fits 0 4 _ (hears (setHi.ack none).wire) _ ?_ ?_ rfl
      (hholds _) (hwrites _)
    all_goals
      rw [hhistory]
      simp
  · refine hclients getHiCall getHiCall_fits 1 4 _ (hears hiAck) _ ?_ ?_ rfl (hholds _) (hwrites _)
    all_goals
      rw [hhistory]
      simp

end RN2223.Praxis2
