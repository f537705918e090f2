import Sdplane.Nettlp.Reassembly
import Sdplane.Nettlp.Receive

/-!
# What a received frame is answered from

`nettlp_psmem_receive` never asks how long the packet is. Two receive buffers that start
with the same frame and differ behind it may then be answered differently; here is when
they are not.
-/

namespace Sdplane

open ByteMem

/-- The buffer holds the frame `f` from `eth` on. -/
def StartsWith (b : ByteMem) (eth : Nat) (f : List Byte) : Prop := b.read eth f.length = f

/-- What can be seen of a received frame: the pseudo memory and the frames that went out. -/
def Received.observed (r : Received) : List Byte × List (List Byte) :=
  (r.psmem.memory.read 0 r.psmem.size.toNat, r.sent.map fun q => q.frame.data)

/-- Two receive buffers that hold the same frame give the same memory and the same frames,
    whatever follows the frame in them. -/
def NoOverRead (c : NettlpConf) (p : Psmem) (eth : Nat) (f : List Byte) : Prop :=
  ∀ b b', StartsWith b eth f → StartsWith b' eth f → ∀ residual fuel,
    (nettlpPsmemReceive c p b eth residual fuel).observed =
      (nettlpPsmemReceive c p b' eth residual fuel).observed

/-- The frame is a memory write that the range test lets through, and the `k`-th byte of its
    payload, taken from offset `src` of the buffer, lands in the memory. -/
def RxStores (p : Psmem) (b : ByteMem) (eth k src : Nat) : Prop :=
  rxIsMwr b eth = true ∧ ∃ cpy, nettlpPsmemMwr p b (eth + rxTlpOffset) = some cpy ∧
    k < cpy.n.toNat ∧ cpy.offset k < p.size.toNat ∧ src = cpy.src + k

/-- What an accepted request is answered from lies in the first `n` octets: the header of a
    read, and of a write each payload byte that lands in the memory. -/
structure RxCovered (p : Psmem) (b : ByteMem) (eth n : Nat) : Prop where
  mrd : RxAnswers p b eth → rxTlpOffset + mrHdrLen b (eth + rxTlpOffset) ≤ n
  mwr : ∀ k src, RxStores p b eth k src → src < eth + n

/-- Whatever follows the frame in the buffer, it is covered. -/
def FrameCovered (p : Psmem) (eth : Nat) (f : List Byte) : Prop :=
  ∀ b, StartsWith b eth f → RxCovered p b eth f.length

/-! ## Buffers with the same frame -/

theorem startsWith_iff {b : ByteMem} {eth : Nat} {f : List Byte} :
    StartsWith b eth f ↔ ∀ k (h : k < f.length), b (eth + k) = f[k] := by
  constructor
  · intro starts k h
    have at_k := List.getElem_of_eq starts (by simpa using h)
    rwa [getElem_read] at at_k
  · intro same
    apply List.ext_getElem
    · exact length_read b eth f.length
    · intro k h1 h2
      rw [getElem_read]
      exact same k h2

theorem StartsWith.agree {b b' : ByteMem} {eth : Nat} {f : List Byte} (h : StartsWith b eth f)
    (h' : StartsWith b' eth f) {k : Nat} (hk : k < f.length) : b (eth + k) = b' (eth + k) := by
  rw [startsWith_iff.mp h k hk, startsWith_iff.mp h' k hk]

/-- A byte behind the frame may have any value. -/
theorem StartsWith.update {b : ByteMem} {eth : Nat} {f : List Byte} (h : StartsWith b eth f)
    {i : Nat} (hi : eth + f.length ≤ i) (v : Byte) : StartsWith (b.store8 i v) eth f := by
  rw [startsWith_iff] at h ⊢
  intro k hk
  rw [store8_of_ne _ _ _ (by omega)]
  exact h k hk

/-- Up to the end of the request header the buffers are the same. -/
structure SameHeaders (b b' : ByteMem) (eth : Nat) : Prop where
  outer : ∀ k < rxTlpOffset, b (eth + k) = b' (eth + k)
  request : SameMrHdr b b' (eth + rxTlpOffset)

theorem StartsWith.sameHeaders {b b' : ByteMem} {eth : Nat} {f : List Byte}
    (h : StartsWith b eth f) (h' : StartsWith b' eth f)
    (inside : rxTlpOffset + mrHdrLen b (eth + rxTlpOffset) ≤ f.length) : SameHeaders b b' eth where
  outer := fun k hk => h.agree h' (by omega)
  request := by
    intro k hk
    rw [Nat.add_assoc]
    exact h.agree h' (by omega)

theorem sameHeaders_store8 (b : ByteMem) (eth : Nat) {i : Nat} (v : Byte)
    (behind : eth + rxTlpOffset + mrHdrLen b (eth + rxTlpOffset) ≤ i) :
    SameHeaders b (b.store8 i v) eth where
  outer := fun k hk => (store8_of_ne _ _ _ (by omega)).symm
  request := fun k hk => (store8_of_ne _ _ _ (by omega)).symm

namespace SameHeaders

variable {b b' : ByteMem} {eth : Nat}

theorem isUdp (h : SameHeaders b b' eth) : rxIsUdp b eth = rxIsUdp b' eth := by
  have ether : b.load16 (eth + 12) = b'.load16 (eth + 12) := by
    apply load16_congr
    intro k hk
    rw [Nat.add_assoc]
    exact h.outer _ (by simp only [rxTlpOffset, sizeofEtherHdr, sizeofIpv4Hdr]; omega)
  rw [rxIsUdp, rxIsUdp, ether, h.outer 23 (by decide)]

theorem isMrd (h : SameHeaders b b' eth) : rxIsMrd b eth = rxIsMrd b' eth := by
  rw [rxIsMrd, rxIsMrd, h.isUdp, h.request.fmtType]

theorem isMwr (h : SameHeaders b b' eth) : rxIsMwr b eth = rxIsMwr b' eth := by
  rw [rxIsMwr, rxIsMwr, h.isUdp, h.request.fmtType]

end SameHeaders

/-! ## Covered frames -/

section
variable {p : Psmem} {b b' : ByteMem} {eth : Nat}

theorem lt_memory_size {i : Nat} (h : i < p.size.toNat) : i < 2 ^ 64 := by
  have hsize := p.size.isLt
  omega

/-- A payload lies behind its header. -/
theorem RxStores.src_ge {k src : Nat} (h : RxStores p b eth k src) :
    eth + rxTlpOffset + mrHdrLen b (eth + rxTlpOffset) ≤ src := by
  obtain ⟨-, cpy, copied, -, -, rfl⟩ := h
  have source : cpy.src = tlpMwrData b (eth + rxTlpOffset) := by
    simp only [nettlpPsmemMwr] at copied
    split at copied
    · cases copied
    · rw [← Option.some.inj copied]
  rw [source, tlpMwrData, mrHdrLen, sizeofTlpMrHdr]
  split <;> omega

/-- The memory after a write, where nothing it can store lands in the memory. -/
theorem psmemAfterMwr_read_of_not_stores (write : rxIsMwr b eth = true)
    (nothing : ∀ k src, ¬ RxStores p b eth k src) :
    (psmemAfterMwr p b (eth + rxTlpOffset)).memory.read 0 p.size.toNat =
      p.memory.read 0 p.size.toNat := by
  apply read_congr
  intro i hi
  rw [Nat.zero_add, psmemAfterMwr]
  cases copied : nettlpPsmemMwr p b (eth + rxTlpOffset) with
  | none => rfl
  | some cpy =>
      apply cpy.run_of_not_offset b p.memory (lt_memory_size hi)
      rintro k hk rfl
      exact nothing k _ ⟨write, cpy, copied, hk, hi, rfl⟩

variable (c : NettlpConf) (residual : Nat → ByteMem) (fuel : Nat)

/-- A frame that is neither answered nor stored leaves no trace. -/
theorem observed_of_idle (silent : ¬ RxAnswers p b eth)
    (nothing : ∀ k src, ¬ RxStores p b eth k src) :
    (nettlpPsmemReceive c p b eth residual fuel).observed =
      (p.memory.read 0 p.size.toNat, []) := by
  have silence := nettlpPsmemReceive_of_silent c p b eth residual fuel silent
  have region := nettlpPsmemReceive_region c p b eth residual fuel
  rw [Received.observed, silence.1, region.2]
  refine Prod.ext ?_ rfl
  cases write : rxIsMwr b eth with
  | true =>
      rw [nettlpPsmemReceive_of_mwr c p residual fuel write]
      exact psmemAfterMwr_read_of_not_stores write nothing
  | false =>
      cases read : rxIsMrd b eth with
      | true => rw [nettlpPsmemReceive_of_mrd c p residual fuel read]
      | false => rw [nettlpPsmemReceive_of_neither c p residual fuel read write]

/-- With the same header, two reads are answered in the same way. -/
theorem observed_of_sameHeaders_mrd (same : SameHeaders b b' eth) (read : rxIsMrd b eth = true) :
    nettlpPsmemReceive c p b eth residual fuel = nettlpPsmemReceive c p b' eth residual fuel := by
  rw [nettlpPsmemReceive_of_mrd c p residual fuel read,
    nettlpPsmemReceive_of_mrd c p residual fuel (same.isMrd ▸ read), same.request.mrd]

/-- With the same header, two writes that store the same bytes in the memory leave the same
    memory. -/
theorem observed_of_sameHeaders_mwr (same : SameHeaders b b' eth) (write : rxIsMwr b eth = true)
    (payload : ∀ k src, RxStores p b eth k src → b src = b' src) :
    (nettlpPsmemReceive c p b eth residual fuel).observed =
      (nettlpPsmemReceive c p b' eth residual fuel).observed := by
  rw [nettlpPsmemReceive_of_mwr c p residual fuel write,
    nettlpPsmemReceive_of_mwr c p residual fuel (same.isMwr ▸ write)]
  simp only [Received.observed, psmemAfterMwr_size, Prod.mk.injEq, and_true]
  apply read_congr
  intro i hi
  rw [Nat.zero_add, psmemAfterMwr, psmemAfterMwr, ← same.request.mwr p]
  cases copied : nettlpPsmemMwr p b (eth + rxTlpOffset) with
  | none => rfl
  | some cpy =>
      change cpy.run b p.memory i = cpy.run b' p.memory i
      by_cases stored : ∃ k < cpy.n.toNat, cpy.offset k = i
      · obtain ⟨k, hk, rfl⟩ := stored
        rw [cpy.run_offset b p.memory hk, cpy.run_offset b' p.memory hk]
        exact payload k _ ⟨write, cpy, copied, hk, hi, rfl⟩
      · have other : ∀ k < cpy.n.toNat, cpy.offset k ≠ i := fun k hk here => stored ⟨k, hk, here⟩
        rw [cpy.run_of_not_offset b p.memory (lt_memory_size hi) other,
          cpy.run_of_not_offset b' p.memory (lt_memory_size hi) other]

end

/-! ## Frames that are not covered -/

/-- The last octet of a big-endian word is its lowest. -/
theorem byteSwap_ofLe_read_mod (b : ByteMem) (q n : Nat) :
    byteSwap (n + 1) (ofLe (b.read q (n + 1))) % 256 = (b (q + n)).toNat := by
  have octets := toLe_ofLe (b.read q (n + 1))
  rw [length_read] at octets
  have last : b.read (q + n) 1 = [b (q + n)] := rfl
  have low := (b (q + n)).isLt
  rw [byteSwap, octets, read_add, last, List.reverse_append]
  change ((b (q + n)).toNat + 256 * ofLe _) % 256 = _
  omega

theorem mrAddrField_mod (b : ByteMem) (mh : Nat) :
    (mrAddrField b mh).toNat % 256 = (b (mh + (mrHdrLen b mh - 1))).toNat := by
  unfold mrAddrField mrHdrLen
  split
  · have low : byteSwap 4 (ofLe (b.read (mh + 8) 4)) % 256 = (b (mh + (12 - 1))).toNat :=
      byteSwap_ofLe_read_mod b (mh + 8) 3
    have bound := ofLe_lt (b.read (mh + 8) 4)
    have swapped := byteSwap_lt 4 (ofLe (b.read (mh + 8) 4))
    rw [length_read] at bound
    rw [sizeofTlpMrHdr, be32toh, load32, BitVec.toNat_setWidth, BitVec.toNat_ofNat,
      BitVec.toNat_ofNat, Nat.mod_eq_of_lt (a := ofLe _) (by omega)]
    omega
  · have low : byteSwap 8 (ofLe (b.read (mh + 8) 8)) % 256 = (b (mh + (16 - 1))).toNat :=
      byteSwap_ofLe_read_mod b (mh + 8) 7
    have bound := ofLe_lt (b.read (mh + 8) 8)
    have swapped := byteSwap_lt 8 (ofLe (b.read (mh + 8) 8))
    rw [length_read] at bound
    rw [sizeofTlpMrHdr, be64toh, load64, BitVec.toNat_ofNat, BitVec.toNat_ofNat,
      Nat.mod_eq_of_lt (a := ofLe _) (by omega)]
    omega

/-- Flipping bit 6 of the last address octet moves the address by 64. -/
theorem tlpMrAddr_mod_of_flip {b b' : ByteMem} {mh : Nat}
    (format : hdrFmtType b' mh = hdrFmtType b mh) (enables : mrFstdw b' mh = mrFstdw b mh)
    (flip : b' (mh + (mrHdrLen b mh - 1)) = b (mh + (mrHdrLen b mh - 1)) ^^^ 0x40#8) :
    (tlpMrAddr b' mh).toNat % 128 ≠ (tlpMrAddr b mh).toNat % 128 := by
  have len : mrHdrLen b' mh = mrHdrLen b mh := by rw [mrHdrLen, mrHdrLen, format]
  have low := mrAddrField_mod b mh
  have low' := mrAddrField_mod b' mh
  rw [len, flip] at low'
  have moved : ∀ v : Byte, (v ^^^ 0x40#8).toNat % 128 = (v.toNat + 64) % 128 := by decide +kernel
  have at_last := moved (b (mh + (mrHdrLen b mh - 1)))
  rw [tlpMrAddr, tlpMrAddr, enables, BitVec.toNat_add, BitVec.toNat_add]
  omega

theorem toNat_lowaddr (a : BitVec 64) : ((a &&& 0x7F#64).setWidth 8).toNat = a.toNat % 128 := by
  have low : (a &&& 0x7F#64).toNat = a.toNat % 128 := by
    rw [BitVec.toNat_and]
    exact Nat.and_two_pow_sub_one_eq_mod a.toNat 7
  rw [BitVec.toNat_setWidth, low]
  omega

section
variable (c : NettlpConf) (p : Psmem) (b : ByteMem) (mh : Nat) (residual : Nat → ByteMem)

/-- The first round of an accepted read. -/
theorem nettlpPsmemMrd_one (accepted : mrdOutOfRange p b mh = false) :
    (nettlpPsmemMrd c p b mh residual 1).1 =
      [mrdCompletion c p b mh residual 0 (.start b mh)] := by
  rw [nettlpPsmemMrd_of_accepted c residual 1 accepted, DoWhile.run]
  split <;> rfl

theorem mrdTlp_dataLen (residual : ByteMem) (s : MrdState) :
    18 ≤ (mrdTlp c p b mh residual s).dataLen := by
  have nettlp : (rtePktmbufAppend (rtePktmbufAlloc l2fwdPktmbufPool residual)
      sizeofNettlpHdr).dataLen = (rtePktmbufAlloc l2fwdPktmbufPool residual).dataLen +
        sizeofNettlpHdr := Mbuf.append_dataLen
    (by simp only [Mbuf.alloc_dataOff, Mbuf.alloc_dataLen, Mbuf.alloc_bufLen]; decide)
  have header : (rtePktmbufAppend (rtePktmbufAppend (rtePktmbufAlloc l2fwdPktmbufPool residual)
      sizeofNettlpHdr) sizeofTlpCplHdr).dataLen = (rtePktmbufAppend
        (rtePktmbufAlloc l2fwdPktmbufPool residual) sizeofNettlpHdr).dataLen +
          sizeofTlpCplHdr := Mbuf.append_dataLen
    (by
      simp only [nettlp, Mbuf.append_dataOff, Mbuf.append_bufLen, Mbuf.alloc_dataOff,
        Mbuf.alloc_dataLen, Mbuf.alloc_bufLen]
      decide)
  rw [nettlp, Mbuf.alloc_dataLen] at header
  simp only [mrdTlp, Mbuf.modify_dataLen]
  refine le_trans ?_ (Mbuf.dataLen_le_append _ _)
  rw [Mbuf.modify_dataLen, header]
  decide

/-- A completion shows the low seven bits of its address, in octet 59 of the frame. -/
theorem mrdCompletion_lowaddr (i : Nat) (s : MrdState) :
    (mrdCompletion c p b mh residual i s).frame.data[59]? =
      some ((s.addr &&& 0x7F#64).setWidth 8) := by
  have off : (mrdTlp c p b mh (residual i) s).dataOff = 128 :=
    (mrdTlp_sameHeadroom c p b mh (residual i) s).dataOff
  have len := mrdTlp_dataLen c p b mh (residual i) s
  obtain ⟨start, grown, -⟩ := prependHeaders_spec c none
    (m := mrdTlp c p b mh (residual i) s) (by omega)
  have here := mrdCompletion_header c p b mh residual i s (j := 145) (by omega) (by omega)
  have field := putCplHdr_lowaddr c b mh s 128 (residual i)
  change (ByteMem.read (mrdCompletion c p b mh residual i s).frame.buf
    (prependHeaders c none (mrdTlp c p b mh (residual i) s)).dataOff
    (prependHeaders c none (mrdTlp c p b mh (residual i) s)).dataLen)[59]? = _
  rw [start, grown, off, List.getElem?_eq_getElem (by rw [length_read]; omega), getElem_read]
  exact congrArg some (here.trans field)

end

/-- The header of an accepted read cannot be changed in its last octet without a trace. -/
theorem observed_ne_of_mrd (c : NettlpConf) {p : Psmem} {b b' : ByteMem} {eth : Nat}
    (answers : RxAnswers p b eth)
    (same : ∀ i, i ≠ eth + rxTlpOffset + (mrHdrLen b (eth + rxTlpOffset) - 1) → b' i = b i)
    (flip : b' (eth + rxTlpOffset + (mrHdrLen b (eth + rxTlpOffset) - 1)) =
      b (eth + rxTlpOffset + (mrHdrLen b (eth + rxTlpOffset) - 1)) ^^^ 0x40#8) :
    (nettlpPsmemReceive c p b eth (fun _ _ => 0) 1).observed ≠
      (nettlpPsmemReceive c p b' eth (fun _ _ => 0) 1).observed := by
  obtain ⟨read, accepted⟩ := answers
  have len : 12 ≤ mrHdrLen b (eth + rxTlpOffset) := by
    unfold mrHdrLen
    split <;> omega
  have at_tlp : hdrFmtType b' (eth + rxTlpOffset) = hdrFmtType b (eth + rxTlpOffset) :=
    same _ (by omega)
  have enables : mrFstdw b' (eth + rxTlpOffset) = mrFstdw b (eth + rxTlpOffset) := by
    rw [mrFstdw, mrFstdw, same _ (by omega)]
  have udp : rxIsUdp b' eth = rxIsUdp b eth := by
    rw [rxIsUdp, rxIsUdp, load16_congr fun k hk => same (_ + k) ?_, same _ ?_]
    all_goals
      simp only [rxTlpOffset, sizeofEtherHdr, sizeofIpv4Hdr, sizeofUdpHdr, sizeofNettlpHdr] at len ⊢
      omega
  have read' : rxIsMrd b' eth = true := by
    rw [← read, rxIsMrd, rxIsMrd, udp, at_tlp]
  have moved := tlpMrAddr_mod_of_flip at_tlp enables flip
  rw [nettlpPsmemReceive_of_mrd c p _ _ read, nettlpPsmemReceive_of_mrd c p _ _ read']
  intro equal
  have frames := congrArg Prod.snd equal
  simp only [Received.observed, nettlpPsmemMrd_one c p b _ _ accepted] at frames
  cases accepted' : mrdOutOfRange p b' (eth + rxTlpOffset) with
  | true => simp [nettlpPsmemMrd, accepted'] at frames
  | false =>
      rw [nettlpPsmemMrd_one c p b' _ _ accepted'] at frames
      have octet := congrArg (fun l => l[59]?) (List.cons.inj frames).1
      simp only [mrdCompletion_lowaddr] at octet
      have low := congrArg BitVec.toNat (Option.some.inj octet)
      rw [toNat_lowaddr, toNat_lowaddr] at low
      exact moved low.symm

/-- A byte of a write that lands in the memory cannot be changed without a trace. -/
theorem observed_ne_of_mwr (c : NettlpConf) {p : Psmem} {b : ByteMem} {eth k src : Nat}
    (stores : RxStores p b eth k src) :
    (nettlpPsmemReceive c p b eth (fun _ _ => 0) 1).observed ≠
      (nettlpPsmemReceive c p (b.store8 src (b src ^^^ 0x40#8)) eth (fun _ _ => 0) 1).observed := by
  have same := sameHeaders_store8 b eth (b src ^^^ 0x40#8) stores.src_ge
  obtain ⟨write, cpy, copied, hk, inside, rfl⟩ := stores
  rw [nettlpPsmemReceive_of_mwr c p _ _ write,
    nettlpPsmemReceive_of_mwr c p _ _ (same.isMwr ▸ write)]
  intro equal
  have memory := congrArg Prod.fst equal
  simp only [Received.observed, psmemAfterMwr_size] at memory
  have octet := List.getElem_of_eq memory (i := cpy.offset k) (by simpa using inside)
  simp only [getElem_read, Nat.zero_add, psmemAfterMwr, ← same.request.mwr p, copied,
    cpy.run_offset _ p.memory hk, store8_same] at octet
  have flipped : ∀ v : Byte, v ≠ v ^^^ 0x40#8 := by decide +kernel
  exact flipped _ octet

/-! ## The frames answered from their own octets -/

/-- A frame is answered from its own octets exactly when, whatever follows it, the whole
    header of an accepted read and each payload byte of an accepted write that lands in the
    memory belong to it. -/
theorem noOverRead_iff (c : NettlpConf) (p : Psmem) (eth : Nat) (f : List Byte) :
    NoOverRead c p eth f ↔ FrameCovered p eth f := by
  constructor
  · intro blind b starts
    refine ⟨?_, ?_⟩
    · intro answers
      by_contra beyond
      have len : 12 ≤ mrHdrLen b (eth + rxTlpOffset) := by
        unfold mrHdrLen
        split <;> omega
      refine observed_ne_of_mrd c answers
        (fun i hi => store8_of_ne _ _ _ hi) (store8_same _ _ _) ?_
      exact blind b _ starts (starts.update (by omega) _) _ _
    · intro k src stores
      by_contra beyond
      exact observed_ne_of_mwr c stores (blind b _ starts (starts.update (by omega) _) _ _)
  · intro covered b b' starts starts' residual fuel
    have one_sided : ∀ {b b' : ByteMem}, StartsWith b eth f → StartsWith b' eth f →
        (RxAnswers p b eth ∨ ∃ k src, RxStores p b eth k src) →
        (nettlpPsmemReceive c p b eth residual fuel).observed =
          (nettlpPsmemReceive c p b' eth residual fuel).observed := by
      intro b b' starts starts' seen
      have inside := covered b starts
      rcases seen with answers | ⟨k, src, stores⟩
      · have same := starts.sameHeaders starts' (inside.mrd answers)
        rw [observed_of_sameHeaders_mrd c residual fuel same answers.1]
      · have behind := stores.src_ge
        have last := inside.mwr k src stores
        have same := starts.sameHeaders starts' (by omega)
        apply observed_of_sameHeaders_mwr c residual fuel same stores.1
        intro j from_ stored
        have ge := stored.src_ge
        have lt := inside.mwr j from_ stored
        have agree := starts.agree starts' (k := from_ - eth) (by omega)
        rwa [Nat.add_sub_cancel' (by omega)] at agree
    by_cases seen : RxAnswers p b eth ∨ ∃ k src, RxStores p b eth k src
    · exact one_sided starts starts' seen
    · by_cases seen' : RxAnswers p b' eth ∨ ∃ k src, RxStores p b' eth k src
      · exact (one_sided starts' starts seen').symm
      · -- neither buffer is answered
        obtain ⟨silent, nothing⟩ := not_or.mp seen
        obtain ⟨silent', nothing'⟩ := not_or.mp seen'
        rw [observed_of_idle c residual fuel silent fun k src h => nothing ⟨k, src, h⟩,
          observed_of_idle c residual fuel silent' fun k src h => nothing' ⟨k, src, h⟩]

/-- A 3DW write of one double word to 0x1000, cut off behind its header. -/
def mwrTruncated : List Byte :=
  List.replicate 12 0 ++ [0x08, 0x00] ++ List.replicate 9 0 ++ [17] ++ List.replicate 24 0 ++
    [0x40, 0, 0, 1, 0, 0, 0, 0x0F, 0, 0, 0x10, 0]

/-- What the memory gets from `mwrTruncated` is what the buffer held behind it. -/
theorem nettlpPsmemReceive_overReads :
    ¬ ∀ (c : NettlpConf) (p : Psmem) (eth : Nat) (f : List Byte), NoOverRead c p eth f := by
  intro blind
  have same := blind .initial ⟨0x1000, 4, fun _ => 0⟩ 0 mwrTruncated (.ofList mwrTruncated)
    (.ofList (mwrTruncated ++ [0x55])) (by rfl) (by rfl) (fun _ _ => 0) 1
  have memory := congrArg Prod.fst same
  revert memory
  decide

end Sdplane
