import RN2223.Lib.CMemory
import RN2223.Lib.ByteOrder

/-!
# DHT packets (packet.h / packet.c)

Data and control packets share a 7-byte header. The encoder writes one buffer,
the decoder works in two stages: `packet_decode_hdr` on the header and
`packet_decode_body` on the bytes behind it, which the server calls separately
and `packet_decode` calls in one go.
-/

namespace RN2223.Praxis2
open CMemory ByteOrder

/-! ### Flags (`packet.h:6-27`) -/

def pktFlagCtrl : UInt8 := (1 : UInt8) <<< 7
def pktFlagRply : UInt8 := (1 : UInt8) <<< 1
def pktFlagLkup : UInt8 := (1 : UInt8) <<< 0

def pktFlagAck : UInt8 := (1 : UInt8) <<< 3
def pktFlagGet : UInt8 := (1 : UInt8) <<< 2
def pktFlagSet : UInt8 := (1 : UInt8) <<< 1
def pktFlagDel : UInt8 := (1 : UInt8) <<< 0

def flagSet (flags mask : UInt8) : Bool := flags &&& mask != 0

def pktHeaderLen : ℕ := 7

/-- `struct _packet` (`packet.h:36-48`). A pointer is the list of the bytes it
owns, `NULL` is the empty one. -/
structure Packet where
  flags : UInt8
  keyLen : UInt16
  valueLen : UInt32
  key : Bytes
  value : Bytes
  hashId : UInt16
  nodeId : UInt16
  nodeIp : UInt32
  nodePort : UInt16
  deriving DecidableEq, Repr

def packetNew : Packet := ⟨0, 0, 0, [], [], 0, 0, 0, 0⟩

/-- `packet_dup` (`packet.c:22-38`). -/
def packetDup (p : Packet) : Except Fault Packet := do
  let key ← memcpy p.key p.keyLen.toNat
  let value ← memcpy p.value p.valueLen.toNat
  .ok { packetNew with
    flags := p.flags, keyLen := p.keyLen, valueLen := p.valueLen, hashId := p.hashId,
    nodeId := p.nodeId, nodePort := p.nodePort, nodeIp := p.nodeIp, key := key, value := value }

/-- `packet_body_size` (`packet.c:40-45`): the sum is taken in 32 bits before it
is widened to `size_t`. -/
def packetBodySize (p : Packet) : ℕ :=
  if !flagSet p.flags pktFlagCtrl then (p.keyLen.toUInt32 + p.valueLen).toNat else 4

/-! ### Encoder -/

/-- A field of the fresh buffer: copied when there is something to copy, else
left as `malloc` returned it (no byte of it when the length is zero). -/
def copyField (ptr : Bytes) (len : ℕ) : Except Fault Bytes :=
  if ptr ≠ [] ∧ len ≠ 0 then memcpy ptr len else .ok (List.replicate len 0)

/-- `packet_serialize_data` (`packet.c:47-72`). -/
def packetSerializeData (p : Packet) : Except Fault Bytes := do
  let key ← copyField p.key p.keyLen.toNat
  let value ← copyField p.value p.valueLen.toNat
  .ok ([p.flags, octet16 p.keyLen 8, octet16 p.keyLen 0, octet32 p.valueLen 24,
    octet32 p.valueLen 16, octet32 p.valueLen 8, octet32 p.valueLen 0] ++ key ++ value)

/-- `packet_serialize_ctrl` (`packet.c:74-96`). -/
def packetSerializeCtrl (p : Packet) : Bytes :=
  [p.flags, octet16 p.hashId 8, octet16 p.hashId 0, octet16 p.nodeId 8, octet16 p.nodeId 0,
    octet32 p.nodeIp 24, octet32 p.nodeIp 16, octet32 p.nodeIp 8, octet32 p.nodeIp 0,
    octet16 p.nodePort 8, octet16 p.nodePort 0]

/-- `packet_serialize` (`packet.c:98-103`). -/
def packetSerialize (p : Packet) : Except Fault Bytes :=
  if flagSet p.flags pktFlagCtrl then .ok (packetSerializeCtrl p) else packetSerializeData p

/-! ### Decoder -/

/-- `packet_decode_hdr` (`packet.c:117-158`). -/
def packetDecodeHdr (buffer : Bytes) (bufLen : ℕ) : Except Fault (Option Packet) :=
  if bufLen < pktHeaderLen then .ok none
  else do
    let b0 ← readByte buffer 0
    let b1 ← readByte buffer 1
    let b2 ← readByte buffer 2
    let b3 ← readByte buffer 3
    let b4 ← readByte buffer 4
    let b5 ← readByte buffer 5
    let b6 ← readByte buffer 6
    if !flagSet b0 pktFlagCtrl then
      .ok (some { packetNew with
        flags := b0, keyLen := join16 b1 b2, valueLen := join32 b3 b4 b5 b6 })
    else
      -- upper half of the address only, the lower one is in the body
      .ok (some { packetNew with
        flags := b0, hashId := join16 b1 b2, nodeId := join16 b3 b4,
        nodeIp := shl b5 24 ||| shl b6 16 })

/-- A field of the decoded packet: taken from the body when it has bytes, else
the pointer stays as it was. -/
def decodeField (buffer : Bytes) (len : ℕ) (old : Bytes) : Except Fault Bytes :=
  if len > 0 then memcpy buffer len else .ok old

/-- `packet_decode_body` (`packet.c:160-194`). -/
def packetDecodeBody (p : Packet) (buffer : Bytes) (bufLen : ℕ) : Except Fault (Option Packet) :=
  if flagSet p.flags pktFlagCtrl then do
    let b0 ← readByte buffer 0
    let b1 ← readByte buffer 1
    let b2 ← readByte buffer 2
    let b3 ← readByte buffer 3
    .ok (some { p with
      nodeIp := p.nodeIp ||| (shl b0 8 ||| shl b1 0), nodePort := join16 b2 b3 })
  else
    let pktSize := (p.keyLen.toUInt32 + p.valueLen).toNat
    if bufLen < pktSize then .ok none
    else do
      let key ← decodeField buffer p.keyLen.toNat p.key
      let value ← decodeField (buffer.drop p.keyLen.toNat) p.valueLen.toNat p.value
      .ok (some { p with key := key, value := value })

/-- `packet_decode` (`packet.c:105-115`): the body decoder is handed the pointer
behind the header together with the length of the whole buffer. -/
def packetDecode (buffer : Bytes) (bufLen : ℕ) : Except Fault (Option Packet) := do
  match ← packetDecodeHdr buffer bufLen with
  | none => .ok none
  | some p => packetDecodeBody p (buffer.drop pktHeaderLen) bufLen

/-! ### Packets whose buffers fit their length fields -/

/-- The buffers hold exactly the announced numbers of bytes. -/
structure Packet.Exact (p : Packet) : Prop where
  key : p.key.length = p.keyLen.toNat
  value : p.value.length = p.valueLen.toNat

instance (p : Packet) : Decidable p.Exact :=
  decidable_of_iff (p.key.length = p.keyLen.toNat ∧ p.value.length = p.valueLen.toNat)
    ⟨fun h => ⟨h.1, h.2⟩, fun h => ⟨h.1, h.2⟩⟩

def Packet.wire (p : Packet) : Bytes :=
  if flagSet p.flags pktFlagCtrl then packetSerializeCtrl p
  else [p.flags, octet16 p.keyLen 8, octet16 p.keyLen 0, octet32 p.valueLen 24,
    octet32 p.valueLen 16, octet32 p.valueLen 8, octet32 p.valueLen 0] ++ p.key ++ p.value

theorem copyField_take {ptr : Bytes} {len : ℕ} (h : len ≤ ptr.length) :
    copyField ptr len = .ok (ptr.take len) := by
  by_cases hcopied : ptr ≠ [] ∧ len ≠ 0
  · rw [copyField, if_pos hcopied, memcpy, if_pos h]
  · have hlen : len = 0 := by
      by_contra hne
      have hptr : ptr = [] := by
        by_contra hptr
        exact hcopied ⟨hptr, hne⟩
      rw [hptr, List.length_nil] at h
      omega
    rw [copyField, if_neg hcopied, hlen]
    rfl

theorem copyField_exact {ptr : Bytes} {len : ℕ} (h : ptr.length = len) :
    copyField ptr len = .ok ptr := by
  rw [copyField_take h.ge, List.take_of_length_le h.le]

theorem decodeField_append {field rest : Bytes} {len : ℕ} (h : field.length = len) :
    decodeField (field ++ rest) len [] = .ok field := by
  subst h
  by_cases hf : field = []
  · simp [decodeField, hf]
  · have hpos := List.length_pos_iff.mpr hf
    rw [decodeField, if_pos hpos, memcpy_append]

theorem packetSerialize_exact {p : Packet} (h : flagSet p.flags pktFlagCtrl = false → p.Exact) :
    packetSerialize p = .ok p.wire := by
  by_cases hc : flagSet p.flags pktFlagCtrl
  · simp [packetSerialize, Packet.wire, hc]
  · have he := h (by simpa using hc)
    simp only [packetSerialize, Packet.wire, hc, packetSerializeData, copyField_exact he.key,
      copyField_exact he.value]
    rfl

theorem packetDup_exact {p : Packet} (h : p.Exact) : packetDup p = .ok p := by
  simp only [packetDup, memcpy_exact h.key, memcpy_exact h.value]
  rfl

end RN2223.Praxis2
