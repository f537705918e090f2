import Sdplane.Nettlp.PsmemRead

/-!
# Received frames

`nettlp_psmem_receive` (`nettlp.c:632-717`) looks for a TLP behind Ethernet, IPv4, UDP and
NetTLP headers at fixed offsets and hands memory requests to their handlers. `b` is the
buffer of the frame and `eth` the offset its packet starts at; how long the packet is, the
handler does not ask.
-/

namespace Sdplane

open ByteMem

/-- What became of a received frame: the pseudo memory, the completions sent, whether the
    handler returned, and whether it freed the mbuf. -/
structure Received where
  psmem : Psmem
  sent : List Completion
  returned : Bool
  freed : Bool

/-- The offset of the TLP in a frame. -/
def rxTlpOffset : Nat := sizeofEtherHdr + sizeofIpv4Hdr + sizeofUdpHdr + sizeofNettlpHdr

/-- `nettlp_psmem_receive`, with a bound on the rounds of a memory read. Another Ethernet or
    IPv4 destination is only logged; another protocol returns early. -/
def nettlpPsmemReceive (c : NettlpConf) (p : Psmem) (b : ByteMem) (eth : Nat)
    (residual : Nat → ByteMem) (fuel : Nat) : Received :=
  if ntohs (b.load16 (eth + 12)) ≠ 0x0800 then ⟨p, [], true, false⟩
  else
    let ipv4 := eth + sizeofEtherHdr
    if b (ipv4 + 9) ≠ 17 then ⟨p, [], true, false⟩
    else
      let udp := ipv4 + sizeofIpv4Hdr
      let nh := udp + sizeofUdpHdr
      let th := nh + sizeofNettlpHdr
      if tlpIsMrd (hdrFmtType b th) then
        let answer := nettlpPsmemMrd c p b th residual fuel
        ⟨p, answer.1, answer.2, answer.2⟩
      else if tlpIsMwr (hdrFmtType b th) then ⟨psmemAfterMwr p b th, [], true, true⟩
      -- the handlers of completions are empty, other TLPs are logged
      else ⟨p, [], true, true⟩

/-! ## Dispatch -/

/-- The tests in front of the TLP. -/
def rxIsUdp (b : ByteMem) (eth : Nat) : Bool :=
  ntohs (b.load16 (eth + 12)) == 0x0800 && b (eth + 23) == 17

/-- The frame goes to `nettlp_psmem_mrd`. -/
def rxIsMrd (b : ByteMem) (eth : Nat) : Bool :=
  rxIsUdp b eth && tlpIsMrd (hdrFmtType b (eth + rxTlpOffset))

/-- The frame goes to `nettlp_psmem_mwr`. -/
def rxIsMwr (b : ByteMem) (eth : Nat) : Bool :=
  rxIsUdp b eth && tlpIsMwr (hdrFmtType b (eth + rxTlpOffset))

/-- The frame is a memory read that the range test lets through. -/
def RxAnswers (p : Psmem) (b : ByteMem) (eth : Nat) : Prop :=
  rxIsMrd b eth = true ∧ mrdOutOfRange p b (eth + rxTlpOffset) = false

theorem not_tlpIsMwr_of_mrd {ft : Byte} (h : tlpIsMrd ft = true) : tlpIsMwr ft = false := by
  revert ft
  decide +kernel

section
variable (c : NettlpConf) (p : Psmem) {b : ByteMem} {eth : Nat} (residual : Nat → ByteMem)
  (fuel : Nat)

theorem nettlpPsmemReceive_of_not_udp (h : rxIsUdp b eth = false) :
    nettlpPsmemReceive c p b eth residual fuel = ⟨p, [], true, false⟩ := by
  rw [rxIsUdp, Bool.and_eq_false_iff] at h
  unfold nettlpPsmemReceive
  rcases h with h | h
  · rw [if_pos (by simpa using h)]
  · split
    · rfl
    · rw [if_pos (by simpa [sizeofEtherHdr] using h)]

theorem nettlpPsmemReceive_of_udp (h : rxIsUdp b eth = true) :
    nettlpPsmemReceive c p b eth residual fuel =
      if rxIsMrd b eth then
        ⟨p, (nettlpPsmemMrd c p b (eth + rxTlpOffset) residual fuel).1,
          (nettlpPsmemMrd c p b (eth + rxTlpOffset) residual fuel).2,
          (nettlpPsmemMrd c p b (eth + rxTlpOffset) residual fuel).2⟩
      else if rxIsMwr b eth then ⟨psmemAfterMwr p b (eth + rxTlpOffset), [], true, true⟩
      else ⟨p, [], true, true⟩ := by
  obtain ⟨ether, proto⟩ : ntohs (b.load16 (eth + 12)) = 0x0800 ∧ b (eth + 23) = 17 := by
    simpa [rxIsUdp] using h
  rw [rxIsMrd, rxIsMwr, h, Bool.true_and, Bool.true_and]
  unfold nettlpPsmemReceive
  rw [if_neg (by simpa using ether), if_neg (by simpa [sizeofEtherHdr] using proto)]
  rfl

theorem nettlpPsmemReceive_of_mrd (h : rxIsMrd b eth = true) :
    nettlpPsmemReceive c p b eth residual fuel =
      ⟨p, (nettlpPsmemMrd c p b (eth + rxTlpOffset) residual fuel).1,
        (nettlpPsmemMrd c p b (eth + rxTlpOffset) residual fuel).2,
        (nettlpPsmemMrd c p b (eth + rxTlpOffset) residual fuel).2⟩ := by
  have udp : rxIsUdp b eth = true := (Bool.and_eq_true_iff.mp h).1
  rw [nettlpPsmemReceive_of_udp c p residual fuel udp, if_pos h]

theorem nettlpPsmemReceive_of_mwr (h : rxIsMwr b eth = true) :
    nettlpPsmemReceive c p b eth residual fuel =
      ⟨psmemAfterMwr p b (eth + rxTlpOffset), [], true, true⟩ := by
  obtain ⟨udp, write⟩ := Bool.and_eq_true_iff.mp h
  have not_read : ¬ rxIsMrd b eth = true := by
    intro read
    have other := not_tlpIsMwr_of_mrd (Bool.and_eq_true_iff.mp read).2
    rw [write] at other
    exact Bool.noConfusion other
  rw [nettlpPsmemReceive_of_udp c p residual fuel udp, if_neg not_read, if_pos h]

/-- A frame that is no memory request changes and sends nothing. -/
theorem nettlpPsmemReceive_of_neither (h1 : rxIsMrd b eth = false) (h2 : rxIsMwr b eth = false) :
    nettlpPsmemReceive c p b eth residual fuel = ⟨p, [], true, rxIsUdp b eth⟩ := by
  cases udp : rxIsUdp b eth with
  | false => exact nettlpPsmemReceive_of_not_udp c p residual fuel udp
  | true =>
      rw [nettlpPsmemReceive_of_udp c p residual fuel udp, h1, h2]
      rfl

end

/-- The two memories stand for the same addresses. -/
def SameRegion (p p' : Psmem) : Prop := p'.addr = p.addr ∧ p'.size = p.size

theorem SameRegion.rxAnswers_iff {p p' : Psmem} (h : SameRegion p p') {b : ByteMem} {eth : Nat} :
    RxAnswers p' b eth ↔ RxAnswers p b eth := by
  rw [RxAnswers, RxAnswers, mrdOutOfRange, mrdOutOfRange, psmemOutOfRange, psmemOutOfRange, h.1, h.2]

section
variable (c : NettlpConf) (p : Psmem) (b : ByteMem) (eth : Nat) (residual : Nat → ByteMem)
  (fuel : Nat)

theorem nettlpPsmemReceive_region :
    SameRegion p (nettlpPsmemReceive c p b eth residual fuel).psmem := by
  cases read : rxIsMrd b eth with
  | true =>
      rw [nettlpPsmemReceive_of_mrd c p residual fuel read]
      exact ⟨rfl, rfl⟩
  | false =>
      cases write : rxIsMwr b eth with
      | true =>
          rw [nettlpPsmemReceive_of_mwr c p residual fuel write]
          exact ⟨psmemAfterMwr_addr p b _, psmemAfterMwr_size p b _⟩
      | false =>
          rw [nettlpPsmemReceive_of_neither c p residual fuel read write]
          exact ⟨rfl, rfl⟩

/-- Nothing is sent but the answers of an accepted read. -/
theorem nettlpPsmemReceive_of_silent (silent : ¬ RxAnswers p b eth) :
    (nettlpPsmemReceive c p b eth residual fuel).sent = [] ∧
      (nettlpPsmemReceive c p b eth residual fuel).returned = true := by
  cases read : rxIsMrd b eth with
  | true =>
      have rejected : mrdOutOfRange p b (eth + rxTlpOffset) = true := by
        by_contra accepted
        exact silent ⟨read, by simpa using accepted⟩
      rw [nettlpPsmemReceive_of_mrd c p residual fuel read, nettlpPsmemMrd, if_pos rejected]
      exact ⟨rfl, rfl⟩
  | false =>
      cases write : rxIsMwr b eth with
      | true =>
          rw [nettlpPsmemReceive_of_mwr c p residual fuel write]
          exact ⟨rfl, rfl⟩
      | false =>
          rw [nettlpPsmemReceive_of_neither c p residual fuel read write]
          exact ⟨rfl, rfl⟩

/-- A frame whose handler returned is freed if it is a UDP frame, and not otherwise. -/
theorem nettlpPsmemReceive_freed
    (returned : (nettlpPsmemReceive c p b eth residual fuel).returned = true) :
    (nettlpPsmemReceive c p b eth residual fuel).freed = rxIsUdp b eth := by
  cases udp : rxIsUdp b eth with
  | false => rw [nettlpPsmemReceive_of_not_udp c p residual fuel udp]
  | true =>
      rw [nettlpPsmemReceive_of_udp c p residual fuel udp] at returned ⊢
      split
      · next read =>
          rw [if_pos read] at returned
          exact returned
      · split <;> rfl

end

/-! ## What the handlers read of the header -/

/-- The request header with its address field. -/
def mrHdrLen (b : ByteMem) (mh : Nat) : Nat := if tlpIs3dw (hdrFmtType b mh) then 12 else 16

/-- The request headers at `mh` are the same. -/
def SameMrHdr (b b' : ByteMem) (mh : Nat) : Prop :=
  ∀ k < mrHdrLen b mh, b (mh + k) = b' (mh + k)

namespace SameMrHdr

variable {b b' : ByteMem} {mh : Nat}

theorem lt_of_lt_twelve {k : Nat} (h : SameMrHdr b b' mh) (hk : k < 12) :
    b (mh + k) = b' (mh + k) := by
  apply h
  unfold mrHdrLen
  split <;> omega

theorem fmtType (h : SameMrHdr b b' mh) : hdrFmtType b mh = hdrFmtType b' mh :=
  h.lt_of_lt_twelve (k := 0) (by omega)

theorem load16 (h : SameMrHdr b b' mh) {k : Nat} (hk : k < 11) :
    b.load16 (mh + k) = b'.load16 (mh + k) := by
  apply load16_congr
  intro j hj
  rw [Nat.add_assoc]
  exact h.lt_of_lt_twelve (by omega)

theorem fstdw (h : SameMrHdr b b' mh) : mrFstdw b mh = mrFstdw b' mh := by
  rw [mrFstdw, mrFstdw, h.lt_of_lt_twelve (by omega)]

theorem lstdw (h : SameMrHdr b b' mh) : mrLstdw b mh = mrLstdw b' mh := by
  rw [mrLstdw, mrLstdw, h.lt_of_lt_twelve (by omega)]

theorem addrField (h : SameMrHdr b b' mh) : mrAddrField b mh = mrAddrField b' mh := by
  unfold mrAddrField
  rw [← h.fmtType]
  split
  · next narrow =>
      rw [load32_congr fun k hk => ?_]
      rw [Nat.add_assoc]
      exact h.lt_of_lt_twelve (by rw [sizeofTlpMrHdr]; omega)
  · next wide =>
      rw [load64_congr fun k hk => ?_]
      rw [Nat.add_assoc]
      exact h _ (by rw [mrHdrLen, if_neg wide, sizeofTlpMrHdr]; omega)

theorem addr (h : SameMrHdr b b' mh) : tlpMrAddr b mh = tlpMrAddr b' mh := by
  rw [tlpMrAddr, tlpMrAddr, h.addrField, h.fstdw]

theorem falen (h : SameMrHdr b b' mh) : hdrFalen b mh = hdrFalen b' mh := h.load16 (by omega)

theorem dataLength (h : SameMrHdr b b' mh) : tlpMrDataLength b mh = tlpMrDataLength b' mh := by
  rw [tlpMrDataLength, tlpMrDataLength, h.falen, h.fstdw, h.lstdw]

/-- A memory write makes the same copy. -/
theorem mwr (h : SameMrHdr b b' mh) (p : Psmem) : nettlpPsmemMwr p b mh = nettlpPsmemMwr p b' mh := by
  simp only [nettlpPsmemMwr, tlpMwrData, h.addr, h.dataLength, h.fmtType, h.fstdw]

theorem putCplHdr (h : SameMrHdr b b' mh) (c : NettlpConf) (s : MrdState) (nh : Nat) :
    putCplHdr c b mh s nh = putCplHdr c b' mh s nh := by
  have copied : b.read mh sizeofTlpCplHdr = b'.read mh sizeofTlpCplHdr :=
    read_congr fun k hk => h.lt_of_lt_twelve hk
  have requester : mrRequester b mh = mrRequester b' mh := h.load16 (by omega)
  have tag : mrTag b mh = mrTag b' mh := h.lt_of_lt_twelve (by omega)
  funext d
  simp only [Sdplane.putCplHdr, copied, requester, tag]

/-- A memory read gets the same answer. -/
theorem mrd (h : SameMrHdr b b' mh) (c : NettlpConf) (p : Psmem) (residual : Nat → ByteMem)
    (fuel : Nat) : nettlpPsmemMrd c p b mh residual fuel =
      nettlpPsmemMrd c p b' mh residual fuel := by
  have start : MrdState.start b mh = MrdState.start b' mh := by
    simp only [MrdState.start, h.falen, h.dataLength, h.addr]
  have emit : mrdCompletion c p b mh residual = mrdCompletion c p b' mh residual := by
    funext i s
    simp only [mrdCompletion, mrdTlp, h.putCplHdr c]
  have range : mrdOutOfRange p b mh = mrdOutOfRange p b' mh := by
    rw [mrdOutOfRange, mrdOutOfRange, h.addr, h.falen]
  rw [nettlpPsmemMrd, nettlpPsmemMrd, range, start, emit]

end SameMrHdr

end Sdplane
