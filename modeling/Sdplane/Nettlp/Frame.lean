import Sdplane.Misc.OnesSum
import Sdplane.Nettlp.Mbuf
import Sdplane.Rib.Types
import Sdplane.Tlp.Support

/-!
# Frames of the NetTLP thread

The frames `nettlp_send_dma_write`, `nettlp_send_dma_read` and `nettlp_udp_send` of
`sdplane/nettlp.c` lay out in an mbuf. The three share their header code line for line,
except that only a DMA write sets the packet id; `prependHeaders` is that code. Writes go
where the pointers of the code go, whether or not the preceding append found room.
-/

namespace Sdplane

open ByteMem

/-- The globals of `nettlp.c:74-92` the frame builders read. Addresses are `s_addr`
    values, that is already in network order. -/
structure NettlpConf where
  txPortid : Nat
  localEther : Vector Byte 6
  remoteEther : Vector Byte 6
  localAddr : BitVec 32
  remoteAddr : BitVec 32
  srcPort : BitVec 16
  dstPort : BitVec 16
  requester : BitVec 16
  pciTag : Byte
  memoryAddr : BitVec 64
  payloadSize : Nat
  payloadString : ByteMem

/-- The globals as the program starts. -/
def NettlpConf.initial : NettlpConf where
  txPortid := 0
  localEther := Vector.replicate 6 0
  remoteEther := Vector.replicate 6 0
  localAddr := 0
  remoteAddr := 0
  srcPort := 0
  dstPort := 0
  requester := 0
  pciTag := 0
  memoryAddr := 0
  payloadSize := 0
  payloadString := fun _ => 0

/-- `read_payload_size`, which nothing changes. -/
def readPayloadSize : Nat := 4

def sizeofUdpHdr : Nat := 8
def sizeofIpv4Hdr : Nat := 20
def sizeofEtherHdr : Nat := 14

/-! ## UDP, IPv4 and Ethernet headers (`nettlp.c:222-247`, `398-422`, `491-515`) -/

/-- `rte_ipv4_cksum`: the complement of the folded sum of the header as it is in memory,
    the checksum field included. -/
def rteIpv4Cksum (b : ByteMem) (ip : Nat) : BitVec 16 :=
  ~~~BitVec.ofNat 16 (OnesSum.reduce
    ((List.range 10).map fun k => (b.load16 (ip + 2 * k)).toNat).sum)

/-- The stores to the UDP header; the checksum field is not among them. -/
def putUdp (c : NettlpConf) (udpLength : BitVec 16) (udp : Nat) (b : ByteMem) : ByteMem :=
  let b := b.store16 udp (htons c.srcPort)
  let b := b.store16 (udp + 2) (htons c.dstPort)
  b.store16 (udp + 4) (htons udpLength)

/-- `ipv4->packet_id = random ()`, which only a DMA write does. -/
def putPacketId (packetId : Option (BitVec 16)) (p : Nat) (b : ByteMem) : ByteMem :=
  match packetId with
  | some id => b.store16 p id
  | none => b

/-- The stores to the IPv4 header before the checksum is computed. -/
def putIpv4Fields (c : NettlpConf) (packetId : Option (BitVec 16)) (length : BitVec 16)
    (ip : Nat) (b : ByteMem) : ByteMem :=
  let b := b.store8 ip 0x45
  let b := b.store16 (ip + 2) (htons length)
  let b := putPacketId packetId (ip + 4) b
  let b := b.store32 (ip + 12) c.localAddr
  let b := b.store32 (ip + 16) c.remoteAddr
  b.store8 (ip + 9) 17

/-- All stores to the IPv4 header. -/
def putIpv4 (c : NettlpConf) (packetId : Option (BitVec 16)) (length : BitVec 16) (ip : Nat)
    (b : ByteMem) : ByteMem :=
  let b := putIpv4Fields c packetId length ip b
  b.store16 (ip + 10) (rteIpv4Cksum b ip)

/-- The stores to the Ethernet header. -/
def putEther (c : NettlpConf) (eth : Nat) (b : ByteMem) : ByteMem :=
  let b := b.store16 (eth + 12) (htons 0x0800)
  let b := b.write (eth + 6) c.localEther.toList
  b.write eth c.remoteEther.toList

/-- The header code of the three senders. -/
def prependHeaders (c : NettlpConf) (packetId : Option (BitVec 16)) (m : Mbuf) : Mbuf :=
  let m := rtePktmbufPrepend m sizeofUdpHdr
  let udpLength := BitVec.ofNat 16 (rtePktmbufPktLen m)
  let m := m.modify (putUdp c udpLength (rtePktmbufMtod m))
  let m := rtePktmbufPrepend m sizeofIpv4Hdr
  let length := BitVec.ofNat 16 (rtePktmbufPktLen m)
  let m := m.modify (putIpv4 c packetId length (rtePktmbufMtod m))
  let m := rtePktmbufPrepend m sizeofEtherHdr
  m.modify (putEther c (rtePktmbufMtod m))

/-- `nettlp_udp_send`: the frame it hands to the tx buffer. -/
def nettlpUdpSend (c : NettlpConf) (m : Mbuf) : Mbuf := prependHeaders c none m

/-! ## Memory requests (`nettlp.c:133-220`, `309-342`) -/

/-- The address field takes four bytes below `UINT32_MAX`, eight from there on. -/
def addrIs32 (c : NettlpConf) : Bool := c.memoryAddr < 0xFFFFFFFF#64

/-- The size of the address field. -/
def addrLen (c : NettlpConf) : Nat := if addrIs32 c then 4 else 8

/-- The stores to the request header and the address behind it. -/
def putMrHdr (c : NettlpConf) (size : Nat) (type data : Byte) (mh : Nat) (b : ByteMem) :
    ByteMem :=
  let count := BitVec.ofNat 64 size
  let b := b.store16 (mh + 4) (htons c.requester)
  let b := b.store8 (mh + 6) c.pciTag
  let b := setMrLstdw b mh (lstdwOf c.memoryAddr count)
  let b := setMrFstdw b mh (fstdwOf c.memoryAddr count)
  let length := (tlpCalculateLength c.memoryAddr count).setWidth 16
  let b := b.store16 (mh + 2) (tlpSetLength (hdrFalen b mh) length)
  let b := b.store8 mh (tlpSetType (hdrFmtType b mh) type)
  if addrIs32 c then
    let b := b.store8 mh (tlpSetFmt (hdrFmtType b mh) tlpFmt3dw data)
    b.store32 (mh + sizeofTlpMrHdr) (htobe32 ((c.memoryAddr &&& 0xFFFFFFFC#64).setWidth 32))
  else
    let b := b.store8 mh (tlpSetFmt (hdrFmtType b mh) tlpFmt4dw data)
    b.store64 (mh + sizeofTlpMrHdr) (htobe64 (c.memoryAddr &&& 0xFFFFFFFFFFFFFFFC#64))

/-- NetTLP header, request header and address: what both DMA senders start with. The six
    bytes of the NetTLP header are not written. -/
def appendMrHdr (c : NettlpConf) (size : Nat) (type data : Byte) (m : Mbuf) : Mbuf :=
  let m := rtePktmbufAppend m (sizeofNettlpHdr + sizeofTlpMrHdr)
  let m := m.modify (putMrHdr c size type data (rtePktmbufMtod m + sizeofNettlpHdr))
  rtePktmbufAppend m (addrLen c)

/-- The padding loop before the payload: disabled bytes among the first three of the
    first DW, without a `break`. -/
def leadPad (be : BitVec 4) : Nat :=
  if be ≠ 0 ∧ be ≠ 0xF then (List.range 3).countP fun n => be &&& (0x1 <<< n) == 0
  else 0

/-- The padding loop after the payload: disabled bytes among the last three of the last
    DW. -/
def trailPad (be : BitVec 4) : Nat :=
  if be ≠ 0 ∧ be ≠ 0xF then (List.range 3).countP fun n => be &&& (0x8 >>> n) == 0
  else 0

/-- `if (pad_len) { rte_pktmbuf_append (m, pad_len); memset (pad, 0, pad_len); }` -/
def appendPad (pad padLen : Nat) (m : Mbuf) : Mbuf :=
  if padLen ≠ 0 then
    (rtePktmbufAppend m padLen).modify (·.write pad (List.replicate padLen 0))
  else m

/-- The TLP of a DMA write: header, address, padding, payload, padding. -/
def dmaWriteTlp (c : NettlpConf) (m : Mbuf) : Mbuf :=
  let m := appendMrHdr c c.payloadSize tlpTypeMWr tlpFmtWData m
  let mh := rtePktmbufMtod m + sizeofNettlpHdr
  let pad := mh + sizeofTlpMrHdr + addrLen c
  let padLen := leadPad (mrFstdw m.buf mh)
  let m := appendPad pad padLen m
  let m := rtePktmbufAppend m c.payloadSize
  let data := pad + padLen
  let m := m.modify (·.write data (c.payloadString.read 0 c.payloadSize))
  appendPad (data + c.payloadSize) (trailPad (mrLstdw m.buf mh)) m

/-- The frame `nettlp_send_dma_write` builds in a fresh mbuf; `packetId` is `random ()`. -/
def dmaWriteFrame (c : NettlpConf) (packetId : BitVec 16) (m : Mbuf) : Mbuf :=
  prependHeaders c (some packetId) (dmaWriteTlp c m)

/-- The frame `nettlp_send_dma_read` builds in a fresh mbuf. -/
def dmaReadFrame (c : NettlpConf) (m : Mbuf) : Mbuf :=
  prependHeaders c none (appendMrHdr c readPayloadSize tlpTypeMRd tlpFmtWoData m)

/-- The guard of both DMA senders: a rib is there and it knows the tx port and queue. -/
def dmaTxReady (c : NettlpConf) (rib : Option Rib) (txQueueid : Nat) : Bool :=
  match rib.bind Rib.ribInfo with
  | none => false
  | some info =>
      c.txPortid < info.portSize.toNat ∧ txQueueid < (info.port c.txPortid).devInfo.nbTxQueues

/-- `nettlp_send_dma_write`: the frame handed to the tx buffer, if one is built. -/
def nettlpSendDmaWrite (c : NettlpConf) (rib : Option Rib) (lcoreId : Nat)
    (packetId : BitVec 16) (residual : ByteMem) : Option Mbuf :=
  if dmaTxReady c rib lcoreId then
    some (dmaWriteFrame c packetId (rtePktmbufAlloc l2fwdPktmbufPool residual))
  else none

/-- `nettlp_send_dma_read`: the frame handed to the tx buffer, if one is built. -/
def nettlpSendDmaRead (c : NettlpConf) (rib : Option Rib) (lcoreId : Nat)
    (residual : ByteMem) : Option Mbuf :=
  if dmaTxReady c rib lcoreId then
    some (dmaReadFrame c (rtePktmbufAlloc l2fwdPktmbufPool residual))
  else none

end Sdplane
