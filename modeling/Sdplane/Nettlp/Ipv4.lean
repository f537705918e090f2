import Sdplane.Nettlp.Frame

/-!
# Validity of the emitted IPv4 headers

The header code of the three senders writes neither the fragment field nor the checksum
field before `rte_ipv4_cksum` sums the header, so what an earlier packet left in those two
fields decides whether the frame is valid. `prependHeaders_valid_iff` is the exact
condition; that the earlier part of each sender leaves the header area alone carries it to
the three frames.
-/

namespace Sdplane

open ByteMem

/-- A 16-bit field in network order. -/
def be16 (b : ByteMem) (p : Nat) : Nat := (ntohs (b.load16 p)).toNat

theorem toNat_load16 (b : ByteMem) (p : Nat) :
    (b.load16 p).toNat = (b p).toNat + 256 * (b (p + 1)).toNat := by
  have h0 := (b p).isLt
  have h1 := (b (p + 1)).isLt
  simp only [load16, ByteMem.read, ofLe, List.range_succ, List.range_zero, List.nil_append,
    List.cons_append, List.map_cons, List.map_nil, Nat.add_zero, Nat.mul_zero, BitVec.toNat_ofNat]
  omega

theorem be16_eq (b : ByteMem) (p : Nat) :
    be16 b p = 256 * (b p).toNat + (b (p + 1)).toNat := by
  have h0 := (b p).isLt
  have h1 := (b (p + 1)).isLt
  simp only [be16, ntohs, byteSwap, toLe, ofLe, List.reverse_cons, List.reverse_nil,
    List.nil_append, List.cons_append, toNat_load16, BitVec.toNat_ofNat]
  have high : ((b p).toNat + 256 * (b (p + 1)).toNat) / 256 = (b (p + 1)).toNat := by omega
  have low : ((b p).toNat + 256 * (b (p + 1)).toNat) % 2 ^ 8 = (b p).toNat := by omega
  rw [high, low]
  omega

theorem be16_lt (b : ByteMem) (p : Nat) : be16 b p < 65536 := (ntohs (b.load16 p)).isLt

theorem be16_congr {b b' : ByteMem} {p : Nat} (h : ∀ k < 2, b (p + k) = b' (p + k)) :
    be16 b p = be16 b' p := by
  rw [be16, be16, load16_congr h]

/-- The ten words of the IPv4 header at `ip`. -/
def headerWords (b : ByteMem) (ip : Nat) : List Nat :=
  (List.range 10).map fun k => be16 b (ip + 2 * k)

/-- The IPv4 header of an Ethernet frame is valid and denotes a whole packet. -/
structure Ipv4HeaderValid (m : Mbuf) : Prop where
  checksum : OnesSum.onesSum (headerWords m.buf (m.dataOff + sizeofEtherHdr)) = 0xFFFF
  totalLength : be16 m.buf (m.dataOff + sizeofEtherHdr + 2) = m.dataLen - sizeofEtherHdr
  dgramLen : be16 m.buf (m.dataOff + sizeofEtherHdr + sizeofIpv4Hdr + 4) =
    m.dataLen - sizeofEtherHdr - sizeofIpv4Hdr
  unfragmented : be16 m.buf (m.dataOff + sizeofEtherHdr + 6) % 2 ^ 14 = 0

/-- What the buffer held where the IPv4 header goes does no harm: the checksum field is
    one of the two zeros of one's-complement arithmetic, and neither the more-fragments
    flag nor a fragment offset is set. -/
structure ResidualHarmless (b : ByteMem) (ip : Nat) : Prop where
  checksum : be16 b (ip + 10) = 0 ∨ be16 b (ip + 10) = 0xFFFF
  fragment : be16 b (ip + 6) % 2 ^ 14 = 0

theorem residualHarmless_congr {b b' : ByteMem} {ip : Nat}
    (h : ∀ k < 20, b (ip + k) = b' (ip + k)) :
    ResidualHarmless b ip ↔ ResidualHarmless b' ip := by
  have h10 : be16 b (ip + 10) = be16 b' (ip + 10) :=
    be16_congr fun k hk => by simpa [Nat.add_assoc] using h (10 + k) (by omega)
  have h6 : be16 b (ip + 6) = be16 b' (ip + 6) :=
    be16_congr fun k hk => by simpa [Nat.add_assoc] using h (6 + k) (by omega)
  constructor
  · intro ok
    exact ⟨h10 ▸ ok.checksum, h6 ▸ ok.fragment⟩
  · intro ok
    exact ⟨h10 ▸ ok.checksum, h6 ▸ ok.fragment⟩

/-! ## The checksum -/

/-- The header's octets, paired into words. -/
def headerPairs (b : ByteMem) (ip : Nat) : List (Nat × Nat) :=
  (List.range 10).map fun k => ((b (ip + 2 * k)).toNat, (b (ip + 2 * k + 1)).toNat)

theorem headerWords_sum (b : ByteMem) (ip : Nat) :
    (headerWords b ip).sum = OnesSum.beSum (headerPairs b ip) := by
  simp only [headerWords, headerPairs, OnesSum.beSum, be16_eq, List.map_map, Function.comp_def]

theorem load16_sum (b : ByteMem) (ip : Nat) :
    ((List.range 10).map fun k => (b.load16 (ip + 2 * k)).toNat).sum =
      OnesSum.leSum (headerPairs b ip) := by
  simp only [headerPairs, OnesSum.leSum, toNat_load16, List.map_map, Function.comp_def]

/-- The sum of the words other than the checksum. -/
def restSum (b : ByteMem) (ip : Nat) : Nat :=
  ([0, 1, 2, 3, 4, 6, 7, 8, 9].map fun k => (b.load16 (ip + 2 * k)).toNat).sum

theorem leSum_eq_restSum (b : ByteMem) (ip : Nat) :
    OnesSum.leSum (headerPairs b ip) = restSum b ip + (b.load16 (ip + 10)).toNat := by
  rw [← load16_sum, show ip + 10 = ip + 2 * 5 from rfl]
  simp only [restSum, List.range_succ, List.range_zero, List.nil_append, List.cons_append,
    List.map_cons, List.map_nil, List.sum_cons, List.sum_nil]
  omega

theorem restSum_congr {b b' : ByteMem} {ip : Nat}
    (h : ∀ i, i < ip + 10 ∨ ip + 12 ≤ i → b i = b' i) : restSum b ip = restSum b' ip := by
  unfold restSum
  congr 1
  apply List.map_congr_left
  intro k hk
  have hk' : k ≠ 5 := by rintro rfl; simp at hk
  rw [load16_congr fun j hj => h _ (by omega)]

/-- Storing `rte_ipv4_cksum` over a header makes its words sum to all ones exactly when
    the checksum field summed was zero. -/
theorem cksum_valid_iff (b : ByteMem) (ip : Nat) (hpos : 0 < (b ip).toNat) :
    OnesSum.onesSum (headerWords (b.store16 (ip + 10) (rteIpv4Cksum b ip)) ip) = 0xFFFF ↔
      (b.load16 (ip + 10)).toNat = 0 ∨ (b.load16 (ip + 10)).toNat = 0xFFFF := by
  have words : ∀ w ∈ headerWords (b.store16 (ip + 10) (rteIpv4Cksum b ip)) ip, w < 65536 := by
    intro w hw
    obtain ⟨k, -, rfl⟩ := List.mem_map.mp hw
    exact be16_lt _ _
  have rest : restSum (b.store16 (ip + 10) (rteIpv4Cksum b ip)) ip = restSum b ip :=
    restSum_congr fun i hi => store16_of_outside b (ip + 10) _ hi
  have small : ∀ q, (b.load16 q).toNat ≤ 65535 := fun q => Nat.le_of_lt_succ (b.load16 q).isLt
  have bound : restSum b ip + (b.load16 (ip + 10)).toNat < 2 ^ 32 := by
    have h := fun k => small (ip + 2 * k)
    simp only [restSum, List.map_cons, List.map_nil, List.sum_cons, List.sum_nil]
    have := h 0; have := h 1; have := h 2; have := h 3; have := h 4
    have := h 6; have := h 7; have := h 8; have := h 9; have := small (ip + 10)
    omega
  have restPos : 0 < restSum b ip := by
    have first := toNat_load16 b (ip + 2 * 0)
    simp only [restSum, List.map_cons, List.sum_cons]
    simp only [Nat.mul_zero, Nat.add_zero] at first ⊢
    omega
  have cksum : (rteIpv4Cksum b ip).toNat =
      65535 - OnesSum.reduce (restSum b ip + (b.load16 (ip + 10)).toNat) := by
    have hr := OnesSum.reduce_le bound
    rw [rteIpv4Cksum, load16_sum, leSum_eq_restSum, BitVec.toNat_not, BitVec.toNat_ofNat]
    omega
  rw [OnesSum.onesSum_eq_allOnes_iff words, headerWords_sum, OnesSum.beSum_mod_iff,
    OnesSum.beSum_pos_iff, leSum_eq_restSum, rest, load16_store16, cksum]
  have hr := OnesSum.reduce_le bound
  have hm := OnesSum.reduce_mod (restSum b ip + (b.load16 (ip + 10)).toNat)
  have hc := small (ip + 10)
  omega

/-! ## What the header code writes -/

section
variable (c : NettlpConf) (packetId : Option (BitVec 16)) (length : BitVec 16) (p : Nat)
  (b : ByteMem)

theorem putUdp_of_outside {i : Nat} (h : i < p ∨ p + 6 ≤ i) : putUdp c length p b i = b i := by
  unfold putUdp
  rw [store16_of_outside _ _ _ (by omega), store16_of_outside _ _ _ (by omega),
    store16_of_outside _ _ _ (by omega)]

theorem be16_putUdp_dgramLen : be16 (putUdp c length p b) (p + 4) = length.toNat := by
  simp only [be16, putUdp, load16_store16, ntohs_htons]

theorem putEther_of_outside {i : Nat} (h : i < p ∨ p + 14 ≤ i) : putEther c p b i = b i := by
  unfold putEther
  rw [write_of_outside _ _ _ (by rw [Vector.length_toList]; omega),
    write_of_outside _ _ _ (by rw [Vector.length_toList]; omega),
    store16_of_outside _ _ _ (by omega)]

theorem putPacketId_of_outside {i : Nat} (h : i < p ∨ p + 2 ≤ i) :
    putPacketId packetId p b i = b i := by
  cases packetId with
  | none => rfl
  | some id => exact store16_of_outside _ _ _ h

/-- Outside the version, length, id, protocol and address fields nothing is written. -/
theorem putIpv4Fields_of_outside {i : Nat}
    (h : i < p ∨ i = p + 1 ∨ (p + 6 ≤ i ∧ i < p + 9) ∨ (p + 10 ≤ i ∧ i < p + 12) ∨ p + 20 ≤ i) :
    putIpv4Fields c packetId length p b i = b i := by
  unfold putIpv4Fields
  rw [store8_of_ne _ _ _ (by omega), store32_of_outside _ _ _ (by omega),
    store32_of_outside _ _ _ (by omega), putPacketId_of_outside _ _ _ (by omega),
    store16_of_outside _ _ _ (by omega), store8_of_ne _ _ _ (by omega)]

theorem putIpv4Fields_version : putIpv4Fields c packetId length p b p = 0x45 := by
  unfold putIpv4Fields
  rw [store8_of_ne _ _ _ (by omega), store32_of_outside _ _ _ (by omega),
    store32_of_outside _ _ _ (by omega), putPacketId_of_outside _ _ _ (by omega),
    store16_of_outside _ _ _ (by omega), store8_same]

theorem be16_putIpv4Fields_totalLength :
    be16 (putIpv4Fields c packetId length p b) (p + 2) = length.toNat := by
  have same : ∀ k < 2, putIpv4Fields c packetId length p b (p + 2 + k) =
      (ByteMem.store16 (b.store8 p 0x45) (p + 2) (htons length)) (p + 2 + k) := by
    intro k hk
    unfold putIpv4Fields
    rw [store8_of_ne _ _ _ (by omega), store32_of_outside _ _ _ (by omega),
      store32_of_outside _ _ _ (by omega), putPacketId_of_outside _ _ _ (by omega)]
  rw [be16_congr same, be16, load16_store16, ntohs_htons]

theorem putIpv4_of_outside {i : Nat} (h : i < p ∨ p + 20 ≤ i) :
    putIpv4 c packetId length p b i = b i := by
  unfold putIpv4
  rw [store16_of_outside _ _ _ (by omega)]
  rw [putIpv4Fields_of_outside c packetId length p b (by omega)]

theorem be16_putIpv4_totalLength :
    be16 (putIpv4 c packetId length p b) (p + 2) = length.toNat := by
  rw [← be16_putIpv4Fields_totalLength c packetId length p b]
  exact be16_congr fun k hk => store16_of_outside _ _ _ (by omega)

theorem be16_putIpv4_fragment : be16 (putIpv4 c packetId length p b) (p + 6) = be16 b (p + 6) := by
  apply be16_congr
  intro k hk
  unfold putIpv4
  rw [store16_of_outside _ _ _ (by omega)]
  rw [putIpv4Fields_of_outside c packetId length p b (by omega)]

/-- The header sums to all ones exactly when the checksum field held a zero before. -/
theorem putIpv4_checksum_iff :
    OnesSum.onesSum (headerWords (putIpv4 c packetId length p b) p) = 0xFFFF ↔
      be16 b (p + 10) = 0 ∨ be16 b (p + 10) = 0xFFFF := by
  have version := putIpv4Fields_version c packetId length p b
  have residual : (putIpv4Fields c packetId length p b).load16 (p + 10) = b.load16 (p + 10) :=
    load16_congr fun k hk => putIpv4Fields_of_outside c packetId length p b (by omega)
  rw [putIpv4, cksum_valid_iff _ _ (by rw [version]; decide), residual, toNat_load16, be16_eq]
  have h0 := (b (p + 10)).isLt
  have h1 := (b (p + 10 + 1)).isLt
  omega

end

/-! ## The frames -/

section
variable (c : NettlpConf) (packetId : Option (BitVec 16)) {m : Mbuf}

/-- With the headroom it needs, the header code puts the three headers directly in front
    of the packet. -/
theorem prependHeaders_spec (room : 42 ≤ m.dataOff) :
    (prependHeaders c packetId m).dataOff = m.dataOff - 42 ∧
    (prependHeaders c packetId m).dataLen = m.dataLen + 42 ∧
    (prependHeaders c packetId m).buf =
      putEther c (m.dataOff - 42)
        (putIpv4 c packetId (BitVec.ofNat 16 (m.dataLen + 28)) (m.dataOff - 28)
          (putUdp c (BitVec.ofNat 16 (m.dataLen + 8)) (m.dataOff - 8) m.buf)) := by
  have udp : sizeofUdpHdr ≤ m.dataOff := by simp only [sizeofUdpHdr]; omega
  have ip : sizeofIpv4Hdr ≤ m.dataOff - sizeofUdpHdr := by
    simp only [sizeofUdpHdr, sizeofIpv4Hdr]; omega
  have ether : sizeofEtherHdr ≤ m.dataOff - sizeofUdpHdr - sizeofIpv4Hdr := by
    simp only [sizeofUdpHdr, sizeofIpv4Hdr, sizeofEtherHdr]; omega
  simp only [prependHeaders, rtePktmbufPrepend, Mbuf.modify, rtePktmbufMtod, rtePktmbufPktLen,
    dif_pos udp, dif_pos ip, dif_pos ether]
  simp only [sizeofUdpHdr, sizeofIpv4Hdr, sizeofEtherHdr, Nat.sub_sub, Nat.add_assoc, and_self]

/-- Nothing from the packet on is written. -/
theorem prependHeaders_of_ge (room : 42 ≤ m.dataOff) {i : Nat} (h : m.dataOff ≤ i) :
    (prependHeaders c packetId m).buf i = m.buf i := by
  obtain ⟨-, -, buf⟩ := prependHeaders_spec c packetId room
  rw [buf, putEther_of_outside _ _ _ (by omega), putIpv4_of_outside _ _ _ _ _ (by omega),
    putUdp_of_outside _ _ _ _ (by omega)]

/-- The frame the header code builds is valid exactly when the bytes already in the
    headroom were harmless. -/
theorem prependHeaders_valid_iff (room : 42 ≤ m.dataOff) :
    Ipv4HeaderValid (prependHeaders c packetId m) ↔ ResidualHarmless m.buf (m.dataOff - 28) := by
  have fits := m.fits
  have len_lt := m.bufLen_lt
  obtain ⟨off, len, buf⟩ := prependHeaders_spec c packetId room
  obtain ⟨d, hd⟩ : ∃ d, m.dataOff = d + 42 := ⟨m.dataOff - 42, by omega⟩
  rw [hd, show d + 42 - 42 = d by omega] at off buf
  rw [show d + 42 - 28 = d + 14 by omega, show d + 42 - 8 = d + 34 by omega] at buf
  rw [hd, show d + 42 - 28 = d + 14 by omega]
  -- the Ethernet header ends where the IPv4 header starts, which ends where UDP starts
  have outer : ∀ i, d + 14 ≤ i → (prependHeaders c packetId m).buf i =
      putIpv4 c packetId (BitVec.ofNat 16 (m.dataLen + 28)) (d + 14)
        (putUdp c (BitVec.ofNat 16 (m.dataLen + 8)) (d + 34) m.buf) i := by
    intro i hi
    rw [buf, putEther_of_outside _ _ _ (by omega)]
  have inner : ∀ i, i < d + 34 →
      putUdp c (BitVec.ofNat 16 (m.dataLen + 8)) (d + 34) m.buf i = m.buf i :=
    fun i hi => putUdp_of_outside _ _ _ _ (Or.inl hi)
  have words : headerWords (prependHeaders c packetId m).buf (d + 14) =
      headerWords (putIpv4 c packetId (BitVec.ofNat 16 (m.dataLen + 28)) (d + 14)
        (putUdp c (BitVec.ofNat 16 (m.dataLen + 8)) (d + 34) m.buf)) (d + 14) := by
    apply List.map_congr_left
    intro k _
    exact be16_congr fun j _ => outer _ (by omega)
  have total : be16 (prependHeaders c packetId m).buf (d + 14 + 2) = m.dataLen + 28 := by
    rw [be16_congr fun j hj => outer _ (by omega), be16_putIpv4_totalLength, BitVec.toNat_ofNat,
      Nat.mod_eq_of_lt (by omega)]
  have dgram : be16 (prependHeaders c packetId m).buf (d + 14 + 20 + 4) = m.dataLen + 8 := by
    rw [be16_congr fun j hj => (outer _ (by omega)).trans
        (putIpv4_of_outside _ _ _ _ _ (by omega)), be16_putUdp_dgramLen, BitVec.toNat_ofNat,
      Nat.mod_eq_of_lt (by omega)]
  have fragment :
      be16 (prependHeaders c packetId m).buf (d + 14 + 6) = be16 m.buf (d + 14 + 6) := by
    rw [be16_congr fun j hj => outer _ (by omega), be16_putIpv4_fragment]
    exact be16_congr fun j hj => inner _ (by omega)
  have checksum := putIpv4_checksum_iff c packetId (BitVec.ofNat 16 (m.dataLen + 28)) (d + 14)
    (putUdp c (BitVec.ofNat 16 (m.dataLen + 8)) (d + 34) m.buf)
  rw [be16_congr fun j hj => inner _ (by omega), ← words] at checksum
  constructor
  · intro valid
    have sum := valid.checksum
    have whole := valid.unfragmented
    rw [off, sizeofEtherHdr] at sum whole
    exact ⟨checksum.mp sum, fragment ▸ whole⟩
  · intro harmless
    exact {
      checksum := by rw [off]; exact checksum.mpr harmless.checksum
      totalLength := by rw [off, len]; exact total
      dgramLen := by rw [off, len]; exact dgram
      unfragmented := by rw [off]; exact fragment.symm ▸ harmless.fragment }

end

end Sdplane
