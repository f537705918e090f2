import Sdplane.Nettlp.OverRead
import Sdplane.Nettlp.Reassembly
import Sdplane.Tlp.ByteEnables

/-!
# Completion headers

The header of each completion of `nettlp_psmem_mrd` (`nettlp.c:568-596`). It starts as the
first twelve octets of the request, and the status and the byte count are set in the two that
hold its tag and its byte enables; the bit between them is never written.
-/

namespace Sdplane

open ByteMem

/-- The byte-count-modified bit. -/
def tlpCplBcmMask : BitVec 16 := 0x1000

/-- The enabled bytes of a request from byte `d` of its double words on. -/
def requestedFrom (length : Nat) (fstdw lstdw : BitVec 4) (d : Nat) : Nat :=
  (List.range (4 * length)).countP fun i => decide (d ≤ i) && byteEnabled length fstdw lstdw i

/-- The header of a completion, and the data behind it, for the request at `mh` of which
    `delivered` bytes went out before. -/
structure CplHeaderOk (c : NettlpConf) (b : ByteMem) (mh delivered : Nat) (q : Completion) :
    Prop where
  format : tlpIs3dw (hdrFmtType q.frame.buf (frameCplHdr q.frame)) = true ∧
    tlpIsWData (hdrFmtType q.frame.buf (frameCplHdr q.frame)) = true
  type : tlpIsCpl (hdrFmtType q.frame.buf (frameCplHdr q.frame)) = true
  length : rtePktmbufPktLen q.frame = sizeofEtherHdr + sizeofIpv4Hdr + sizeofUdpHdr +
    sizeofNettlpHdr + sizeofTlpCplHdr +
    4 * (tlpLength (hdrFalen q.frame.buf (frameCplHdr q.frame))).toNat
  requester : cplRequester q.frame.buf (frameCplHdr q.frame) = mrRequester b mh
  tag : cplTag q.frame.buf (frameCplHdr q.frame) = mrTag b mh
  completer : cplCompleter q.frame.buf (frameCplHdr q.frame) = htons c.requester
  status : tlpCplStatus (cplStcnt q.frame.buf (frameCplHdr q.frame)) = tlpCplStatusSc
  bcm : ntohs (cplStcnt q.frame.buf (frameCplHdr q.frame)) &&& tlpCplBcmMask = 0
  bcnt : (tlpCplBcnt (cplStcnt q.frame.buf (frameCplHdr q.frame))).toNat =
    requestedFrom (mrLengthDw b mh) (mrFstdw b mh) (mrLstdw b mh) delivered
  lowaddr : ∃ j < q.sendLen,
    byteEnabled (mrLengthDw b mh) (mrFstdw b mh) (mrLstdw b mh) (delivered + j) = true ∧
      (∀ i < j, byteEnabled (mrLengthDw b mh) (mrFstdw b mh) (mrLstdw b mh) (delivered + i) =
        false) ∧
      (cplLowaddr q.frame.buf (frameCplHdr q.frame)).toNat =
        ((mrAddrField b mh).toNat + delivered + j) % 128

/-- What the first `k` of the completions carry. -/
def cplDelivered (sent : List Completion) (k : Nat) : Nat := ((sent.take k).map (·.sendLen)).sum

/-- Every completion that is ever emitted has a right header. -/
def CplHeadersOk (c : NettlpConf) (p : Psmem) (b : ByteMem) (mh : Nat) (residual : Nat → ByteMem) :
    Prop :=
  ∀ fuel k q, (nettlpPsmemMrd c p b mh residual fuel).1[k]? = some q →
    CplHeaderOk c b mh (cplDelivered (nettlpPsmemMrd c p b mh residual fuel).1 k) q

/-- The tag leaves the bit clear, there is a byte requested, and of two double words the last
    one has no gap. -/
structure CplHeadersFit (b : ByteMem) (mh : Nat) : Prop where
  tag : mrTag b mh &&& 0x10 = 0
  pos : 1 ≤ mrLengthDw b mh
  some : mrLengthDw b mh = 1 → mrFstdw b mh ≠ 0
  run : mrLengthDw b mh = 2 → runsFromStart (mrLstdw b mh) = true

/-! ## The field of status and byte count -/

/-- With a byte count that fits, the status is set and the bit below it is kept. -/
theorem stcnt_fields (sc v : BitVec 16) (small : v.toNat < 4096) :
    tlpCplStatus (tlpSetCplBcnt (tlpSetCplStatus sc tlpCplStatusSc) v) = tlpCplStatusSc ∧
      ntohs (tlpSetCplBcnt (tlpSetCplStatus sc tlpCplStatusSc) v) &&& tlpCplBcmMask =
        ntohs sc &&& tlpCplBcmMask := by
  have low : v = v &&& tlpCplBcntMask := by
    apply BitVec.eq_of_toNat_eq
    rw [BitVec.toNat_and]
    exact ((Nat.and_two_pow_sub_one_eq_mod _ 12).trans (Nat.mod_eq_of_lt small)).symm
  rw [tlpCplStatus, tlpSetCplBcnt, ntohs_htons, tlpSetCplStatus, ntohs_htons, low]
  constructor
  · ext i hi
    simp only [BitVec.getElem_or, BitVec.getElem_and, BitVec.getElem_not]
    interval_cases i <;> simp [tlpCplBcntMask, tlpCplStatusMask, tlpCplStatusSc]
  · ext i hi
    simp only [BitVec.getElem_or, BitVec.getElem_and, BitVec.getElem_not]
    interval_cases i <;> simp [tlpCplBcntMask, tlpCplStatusMask, tlpCplStatusSc, tlpCplBcmMask]

theorem ntohs_load16 (b : ByteMem) (p : Nat) : ntohs (b.load16 p) = b p ++ b (p + 1) := by
  apply BitVec.eq_of_toNat_eq
  have sum := be16_eq b p
  rw [be16] at sum
  rw [sum, BitVec.toNat_append, ← Nat.shiftLeft_add_eq_or_of_lt (b (p + 1)).isLt, Nat.shiftLeft_eq,
    Nat.mul_comm]

/-- In the octets of the request, that bit is one of its tag. -/
theorem bcm_load16 (b : ByteMem) (p : Nat) :
    ntohs (b.load16 p) &&& tlpCplBcmMask = 0 ↔ b p &&& 0x10 = 0 := by
  have mask : tlpCplBcmMask = 0x10#8 ++ 0x00#8 := rfl
  have high : (b p ++ b (p + 1)) &&& tlpCplBcmMask = (b p &&& 0x10#8) ++ 0x00#8 := by
    rw [mask, BitVec.and_append, BitVec.and_zero]
  rw [ntohs_load16, high]
  generalize b p &&& 0x10#8 = x
  revert x
  decide +kernel

/-! ## The number of bytes requested -/

theorem countP_range_between (n lo hi : Nat) :
    (List.range n).countP (fun i => decide (lo ≤ i ∧ i < hi)) = min n hi - lo := by
  induction n with
  | zero => simp
  | succ n ih =>
      rw [List.range_succ, List.countP_append, ih, List.countP_singleton]
      by_cases counted : lo ≤ n ∧ n < hi
      · rw [if_pos (decide_eq_true counted)]
        omega
      · rw [if_neg (by simpa using counted)]
        omega

section
variable {length : Nat} {fstdw lstdw : BitVec 4}

theorem EnabledOnce.requestedFrom_eq (once : EnabledOnce length fstdw lstdw) (pos : 1 ≤ length)
    (one : length = 1 → lstdw = 0) (d : Nat) :
    requestedFrom length fstdw lstdw d =
      4 * length + fstdwSkip fstdw - fstdwDisabled fstdw - lstdwDisabled lstdw -
        max d (fstdwSkip fstdw) := by
  have skip := fstdwSkip_le_disabled fstdw
  have between : requestedFrom length fstdw lstdw d = (List.range (4 * length)).countP fun i =>
      decide (max d (fstdwSkip fstdw) ≤ i ∧
        i < 4 * length + fstdwSkip fstdw - fstdwDisabled fstdw - lstdwDisabled lstdw) := by
    refine List.countP_congr fun i _ => ?_
    rw [Bool.and_eq_true, decide_eq_true_eq, decide_eq_true_eq, once.byteEnabled_iff pos one]
    omega
  rw [between, countP_range_between]
  omega

theorem requestedFrom_one (some : fstdw ≠ 0) : requestedFrom 1 fstdw 0 0 = 4 - fstdwDisabled fstdw := by
  revert fstdw
  decide

/-- The bytes of two double words are counted right if the last one has no gap. -/
theorem requestedFrom_two (first : fstdw ≠ 0) (last : lstdw ≠ 0) :
    requestedFrom 2 fstdw lstdw 0 = 8 - fstdwDisabled fstdw - lstdwDisabled lstdw ↔
      runsFromStart lstdw = true := by
  revert fstdw lstdw
  decide +kernel

/-- What the decoder counts is what is requested, if there is something and two double words
    end without a gap. -/
theorem ByteEnablesPermitted.requestedFrom_zero {addr : BitVec 64}
    (permitted : ByteEnablesPermitted addr length fstdw lstdw) (pos : 1 ≤ length)
    (some : length = 1 → fstdw ≠ 0) (run : length = 2 → runsFromStart lstdw = true) :
    requestedFrom length fstdw lstdw 0 =
      4 * length - fstdwDisabled fstdw - lstdwDisabled lstdw := by
  by_cases single : length = 1
  · subst single
    rw [permitted.one rfl]
    exact requestedFrom_one (some rfl)
  · by_cases two : length = 2
    · subst two
      exact (requestedFrom_two (permitted.first (by omega)) (permitted.last (by omega))).mpr (run rfl)
    · have gaps := permitted.gaps (.inl (by omega))
      have once : EnabledOnce length fstdw lstdw := by
        rw [EnabledOnce, if_neg single]
        exact gaps
      rw [once.requestedFrom_eq pos permitted.one, disabled_of_runsToEnd gaps.1]
      omega

end

/-! ## The header of a round -/

section
variable (c : NettlpConf) (p : Psmem) (b : ByteMem) (mh : Nat) (residual : Nat → ByteMem)
  (i : Nat) (s : MrdState)

theorem mrdCompletion_load16 {k : Nat} (hk : k < 11) :
    (mrdCompletion c p b mh residual i s).frame.buf.load16 (134 + k) =
      (putCplHdr c b mh s 128 (residual i)).load16 (134 + k) :=
  load16_congr fun _ hj => mrdCompletion_header _ _ _ _ _ _ _ (by omega) (by omega)

theorem cplRequester_mrdCompletion :
    cplRequester (mrdCompletion c p b mh residual i s).frame.buf 134 = mrRequester b mh := by
  rw [cplRequester, mrdCompletion_load16 _ _ _ _ _ _ _ (by omega), putCplHdr]
  simp only [sizeofNettlpHdr]
  rw [load16_store8 _ (by omega), load16_store8 _ (by omega), load16_store16]

theorem cplTag_mrdCompletion :
    cplTag (mrdCompletion c p b mh residual i s).frame.buf 134 = mrTag b mh := by
  rw [cplTag, mrdCompletion_header _ _ _ _ _ _ _ (by omega) (by omega), putCplHdr]
  simp only [sizeofNettlpHdr]
  rw [store8_of_ne _ _ _ (by omega), store8_same]

theorem cplCompleter_mrdCompletion :
    cplCompleter (mrdCompletion c p b mh residual i s).frame.buf 134 = htons c.requester := by
  rw [cplCompleter, mrdCompletion_load16 _ _ _ _ _ _ _ (by omega), putCplHdr]
  simp only [sizeofNettlpHdr]
  rw [load16_store8 _ (by omega), load16_store8 _ (by omega),
    load16_store16_of_disjoint _ (by omega), load16_store16]

theorem hdrFmtType_mrdCompletion :
    ∃ ft, hdrFmtType (mrdCompletion c p b mh residual i s).frame.buf 134 =
      tlpSetType (tlpSetFmt ft tlpFmt3dw tlpFmtWData) tlpTypeCpl := by
  obtain ⟨ft, format⟩ := putCplHdr_fmtType c b mh s 128 (residual i)
  refine ⟨ft, ?_⟩
  rw [← format]
  exact mrdCompletion_header _ _ _ _ _ _ _ (by omega) (by omega)

/-- The bit below the status is the one the tag has there. -/
theorem cplStcnt_mrdCompletion (h1 : 0 ≤ s.dataLen) (h2 : s.dataLen < 4096) :
    tlpCplStatus (cplStcnt (mrdCompletion c p b mh residual i s).frame.buf 134) = tlpCplStatusSc ∧
      (ntohs (cplStcnt (mrdCompletion c p b mh residual i s).frame.buf 134) &&& tlpCplBcmMask = 0 ↔
        mrTag b mh &&& 0x10 = 0) := by
  have small : (BitVec.ofInt 16 s.dataLen).toNat < 4096 := by
    rw [BitVec.toNat_ofInt]
    omega
  have field := putCplHdr_stcnt c b mh s 128 (residual i)
  have same : cplStcnt (mrdCompletion c p b mh residual i s).frame.buf 134 =
      cplStcnt (putCplHdr c b mh s 128 (residual i)) (128 + sizeofNettlpHdr) :=
    mrdCompletion_load16 c p b mh residual i s (by omega)
  obtain ⟨status, bcm⟩ := stcnt_fields (b.load16 (mh + 6)) _ small
  rw [same, field]
  refine ⟨status, ?_⟩
  rw [bcm, bcm_load16]
  rfl

theorem toNat_cplLowaddr_mrdCompletion :
    (cplLowaddr (mrdCompletion c p b mh residual i s).frame.buf 134).toNat =
      s.addr.toNat % 128 := by
  have field := putCplHdr_lowaddr c b mh s 128 (residual i)
  have same : cplLowaddr (mrdCompletion c p b mh residual i s).frame.buf 134 =
      cplLowaddr (putCplHdr c b mh s 128 (residual i)) (128 + sizeofNettlpHdr) :=
    mrdCompletion_header _ _ _ _ _ _ _ (by omega) (by omega)
  have low : s.addr.toNat &&& (0x7F#64).toNat = s.addr.toNat % 2 ^ 7 :=
    Nat.and_two_pow_sub_one_eq_mod _ 7
  rw [same, field, BitVec.toNat_setWidth, BitVec.toNat_and, low]
  omega

/-- The frame is the headers and the data. -/
theorem mrdCompletion_pktLen (h : s.sendLen ≤ 256) :
    rtePktmbufPktLen (mrdCompletion c p b mh residual i s).frame = 60 + s.sendLen := by
  have off : (mrdTlp c p b mh (residual i) s).dataOff = 128 :=
    (mrdTlp_sameHeadroom c p b mh (residual i) s).dataOff
  obtain ⟨-, len, -⟩ := prependHeaders_spec c none (m := mrdTlp c p b mh (residual i) s) (by omega)
  have tlp : (mrdTlp c p b mh (residual i) s).dataLen = 18 + s.sendLen := by
    simp only [mrdTlp, Mbuf.modify_dataLen]
    rw [Mbuf.append_dataLen, Mbuf.modify_dataLen, Mbuf.append_dataLen, Mbuf.append_dataLen,
      Mbuf.alloc_dataLen, sizeofNettlpHdr, sizeofTlpCplHdr]
    all_goals
      simp [Mbuf.append_dataLen_eq, sizeofNettlpHdr, sizeofTlpCplHdr, rtePktmbufHeadroom,
        l2fwdPktmbufPool]
    omega
  change (prependHeaders c none (mrdTlp c p b mh (residual i) s)).dataLen = _
  rw [len, tlp]
  omega

end

/-! ## The rounds -/

section
variable (c : NettlpConf) (p : Psmem) {b : ByteMem} {mh : Nat} (residual : Nat → ByteMem)

theorem cplDelivered_rounds (k : Nat) :
    ((DoWhile.rounds (mrdCompletion c p b mh residual) MrdState.next k 0 (.start b mh)).map
      (·.sendLen)).sum = mrdThrough b mh k := by
  induction k with
  | zero => simp [DoWhile.rounds, mrdThrough]
  | succ k ih =>
      have send := (MrdState.iterate_at b mh k).sendLen_eq
      rw [DoWhile.rounds] at ih
      rw [DoWhile.rounds, List.range_succ, List.map_append, List.map_append, List.sum_append, ih,
        List.map_singleton, List.map_singleton, List.sum_singleton]
      change mrdThrough b mh k + (MrdState.next^[k] (.start b mh)).sendLen = _
      rw [send, mrdThrough, mrdThrough]
      omega

theorem MrHeader.mrOffset_eq (h : MrHeader b mh) : mrOffset b mh = fstdwSkip (mrFstdw b mh) := by
  have aligned := h.aligned
  have skip := fstdwSkip_le_disabled (mrFstdw b mh)
  have few := fstdwDisabled_le (mrFstdw b mh)
  rw [mrOffset, h.toNat_tlpMrAddr]
  omega

/-- Only where double words are left there is another round. -/
theorem MrHeader.reached (h : MrHeader b mh) {k : Nat}
    (reached : ∀ j < k, MrdState.again (MrdState.next^[j + 1] (.start b mh)) = true) (more : 0 < k) :
    256 * k < 4 * mrLengthDw b mh := by
  obtain ⟨j, rfl⟩ := Nat.exists_eq_succ_of_ne_zero (Nat.ne_of_gt more)
  have again := (MrdState.again_iff b mh j).mp (reached j (Nat.lt_succ_self j))
  have skip := fstdwSkip_le_disabled (mrFstdw b mh)
  rw [tlpMrDataLength_eq, h.mrOffset_eq, mrdThrough] at again
  omega

/-- What the locals of a round say of the request. -/
structure RoundMeans (b : ByteMem) (mh k : Nat) (s : MrdState) : Prop where
  sendLen : s.sendLen ≤ 256 ∧ s.sendLen % 4 = 0
  dataLen : 0 ≤ s.dataLen ∧ s.dataLen < 4096
  bcnt : s.dataLen.toNat =
    requestedFrom (mrLengthDw b mh) (mrFstdw b mh) (mrLstdw b mh) (mrdThrough b mh k)
  first : ∃ j < s.sendLen,
    byteEnabled (mrLengthDw b mh) (mrFstdw b mh) (mrLstdw b mh) (mrdThrough b mh k + j) = true ∧
      (∀ i < j, byteEnabled (mrLengthDw b mh) (mrFstdw b mh) (mrLstdw b mh)
        (mrdThrough b mh k + i) = false) ∧
      s.addr.toNat % 128 = ((mrAddrField b mh).toNat + mrdThrough b mh k + j) % 128

theorem roundMeans_first (h : MrHeader b mh) (fit : CplHeadersFit b mh) :
    RoundMeans b mh 0 (.start b mh) := by
  have pos := fit.pos
  have state := MrdState.start_at b mh
  have send := state.sendLen_eq
  have short := mrLengthDw_lt b mh
  have some : mrFstdw b mh ≠ 0 := h.fstdw_ne_zero pos fun both => fit.some both.1 both.2
  obtain ⟨skip_lt, -⟩ := getLsbD_fstdwSkip some
  have count := h.dataLength_pos pos
  have length := tlpMrDataLength_eq b mh
  have through : mrdThrough b mh 0 = 0 := by rw [mrdThrough]; omega
  have data : (MrdState.start b mh).dataLen = tlpMrDataLength b mh := rfl
  refine ⟨⟨by omega, by omega⟩, ⟨by omega, by omega⟩, ?_, ?_⟩
  · rw [data, length, through, h.permitted.requestedFrom_zero pos fit.some fit.run]
    omega
  · refine ⟨fstdwSkip (mrFstdw b mh), by omega, ?_, ?_, ?_⟩
    · rw [through, Nat.zero_add]
      exact byteEnabled_fstdwSkip pos some
    · intro i before
      rw [through, Nat.zero_add]
      exact byteEnabled_before_fstdwSkip before
    · rw [through]
      exact congrArg (· % 128) h.toNat_tlpMrAddr

theorem roundMeans_later (h : MrHeader b mh) {k : Nat} (more : 0 < k)
    (left : 256 * k < 4 * mrLengthDw b mh) :
    RoundMeans b mh k (MrdState.next^[k] (.start b mh)) := by
  have state := MrdState.iterate_at b mh k
  have send := state.sendLen_eq
  have data := state.dataLen
  have aligned := state.aligned
  have low := state.offset
  have short := mrLengthDw_lt b mh
  have gaps := h.permitted.gaps (.inl (by omega))
  have once : EnabledOnce (mrLengthDw b mh) (mrFstdw b mh) (mrLstdw b mh) := by
    rw [EnabledOnce, if_neg (by omega)]
    exact gaps
  have enabled := once.byteEnabled_iff (by omega) h.permitted.one
  have requested := once.requestedFrom_eq (by omega) h.permitted.one
  have lead := disabled_of_runsToEnd gaps.1
  have few := fstdwDisabled_le (mrFstdw b mh)
  have last := lstdwDisabled_le (mrLstdw b mh)
  have length := tlpMrDataLength_eq b mh
  have through := @mrdThrough_of_le b mh k (by omega)
  rw [if_neg (by omega), h.mrOffset_eq, length, through] at data
  rw [if_neg (by omega)] at low
  refine ⟨⟨by omega, by omega⟩, ⟨by omega, by omega⟩, ?_, ?_⟩
  · rw [requested, through]
    omega
  · refine ⟨0, by omega, ?_, fun i none => absurd none (Nat.not_lt_zero i), ?_⟩
    · rw [enabled, through]
      omega
    · have start := h.toNat_tlpMrAddr
      have offset := toNat_mrAligned b mh
      rw [h.mrOffset_eq] at offset
      have there := congrArg BitVec.toNat aligned
      rw [toNat_shift_align, BitVec.toNat_add, BitVec.toNat_ofNat, through] at there
      rw [through]
      omega

theorem roundMeans (h : MrHeader b mh) (fit : CplHeadersFit b mh) {k : Nat}
    (reached : ∀ j < k, MrdState.again (MrdState.next^[j + 1] (.start b mh)) = true) :
    RoundMeans b mh k (MrdState.next^[k] (.start b mh)) := by
  rcases Nat.eq_zero_or_pos k with rfl | more
  · exact roundMeans_first h fit
  · exact roundMeans_later h more (h.reached reached more)

/-- A round whose locals are right emits a right header. -/
theorem RoundMeans.cplHeaderOk {k : Nat} {s : MrdState} (means : RoundMeans b mh k s)
    (tag : mrTag b mh &&& 0x10 = 0) :
    CplHeaderOk c b mh (mrdThrough b mh k) (mrdCompletion c p b mh residual k s) := by
  obtain ⟨ft, format⟩ := hdrFmtType_mrdCompletion c p b mh residual k s
  obtain ⟨is3dw, isWData, isCpl⟩ := tlpFmtType_cpl ft
  obtain ⟨status, bcm⟩ :=
    cplStcnt_mrdCompletion c p b mh residual k s means.dataLen.1 means.dataLen.2
  have length := tlpLength_mrdCompletion c p b mh residual k s means.sendLen.1
  have whole := means.sendLen.2
  constructor
  all_goals rw [frameCplHdr_mrdCompletion]
  · rw [format]
    exact ⟨is3dw, isWData⟩
  · rw [format]
    exact isCpl
  · rw [mrdCompletion_pktLen c p b mh residual k s means.sendLen.1, length]
    simp only [sizeofEtherHdr, sizeofIpv4Hdr, sizeofUdpHdr, sizeofNettlpHdr, sizeofTlpCplHdr]
    omega
  · exact cplRequester_mrdCompletion c p b mh residual k s
  · exact cplTag_mrdCompletion c p b mh residual k s
  · exact cplCompleter_mrdCompletion c p b mh residual k s
  · exact status
  · exact bcm.mpr tag
  · rw [tlpCplBcnt_mrdCompletion c p b mh residual k s means.dataLen.1 means.dataLen.2, means.bcnt]
  · rw [toNat_cplLowaddr_mrdCompletion]
    exact means.first

/-- The first header is right only if the request fits. -/
theorem CplHeaderOk.fit (h : MrHeader b mh)
    (ok : CplHeaderOk c b mh 0 (mrdCompletion c p b mh residual 0 (.start b mh))) :
    CplHeadersFit b mh := by
  have bcm := ok.bcm
  have bcnt := ok.bcnt
  obtain ⟨j, -, on, -, -⟩ := ok.lowaddr
  rw [Nat.zero_add] at on
  have inside := byteEnabled_lt on
  have pos : 1 ≤ mrLengthDw b mh := by omega
  have count := h.dataLength_pos pos
  obtain ⟨-, upper⟩ := tlpMrDataLength_bounds b mh
  have length := tlpMrDataLength_eq b mh
  have data : (MrdState.start b mh).dataLen = tlpMrDataLength b mh := rfl
  obtain ⟨-, kept⟩ :=
    cplStcnt_mrdCompletion c p b mh residual 0 (.start b mh) (by omega) (by omega)
  rw [frameCplHdr_mrdCompletion] at bcm bcnt
  rw [tlpCplBcnt_mrdCompletion c p b mh residual 0 (.start b mh) (by omega) (by omega), data,
    length] at bcnt
  refine ⟨kept.mp bcm, pos, ?_, ?_⟩
  · intro single zero
    rw [(h.none_enabled_iff pos).mpr ⟨single, zero⟩ j] at on
    cases on
  · intro two
    rw [two] at bcnt
    refine (requestedFrom_two (h.permitted.first (by omega)) (h.permitted.last (by omega))).mp ?_
    omega

/-- The headers of all completions of an answered read are right exactly if the request fits:
    its tag has bit 4 clear, a byte is requested, and two double words end without a gap. -/
theorem cplHeadersOk_iff (h : MrHeader b mh) (answered : MrdAnswers c p b mh residual) :
    CplHeadersOk c p b mh residual ↔ CplHeadersFit b mh := by
  have accepted := (mrdAnswers_iff c p b mh residual).mp answered
  constructor
  · intro ok
    have sent := nettlpPsmemMrd_one c p b mh residual accepted
    have first := ok 1 0 (mrdCompletion c p b mh residual 0 (.start b mh)) (by rw [sent]; rfl)
    exact first.fit c p residual h
  · intro fit fuel k q item
    rw [nettlpPsmemMrd_of_accepted c residual fuel accepted] at item ⊢
    obtain ⟨rfl, before, reached⟩ := DoWhile.getElem?_run (mrdCompletion c p b mh residual) item
    rw [cplDelivered, before, cplDelivered_rounds, Nat.zero_add]
    exact (roundMeans h fit reached).cplHeaderOk c p residual fit.tag

end

theorem mrdFirstDw_header : MrHeader mrdFirstDw 0 :=
  ⟨by decide, by decide, by decide, by decide, by decide⟩

theorem cplHeadersOk_firstDw :
    CplHeadersOk .initial countingPsmem mrdFirstDw 0 (fun _ _ => 0) ↔ CplHeadersFit mrdFirstDw 0 :=
  cplHeadersOk_iff .initial countingPsmem (fun _ _ => 0) mrdFirstDw_header mrdFirstDw_answered

/-- The same request with tag 16. -/
def mrdTagged : ByteMem := ByteMem.ofList [0x00, 0, 0, 1, 0, 0, 16, 0x0F, 0x00, 0x00, 0x10, 0x00]

/-- Its completion says that its byte count is modified. -/
theorem cplHeadersOk_not :
    ¬ ∀ (c : NettlpConf) (p : Psmem) (b : ByteMem) (mh : Nat) (residual : Nat → ByteMem),
      MrHeader b mh → MrdAnswers c p b mh residual → CplHeadersOk c p b mh residual := by
  intro all
  have header : MrHeader mrdTagged 0 := ⟨by decide, by decide, by decide, by decide, by decide⟩
  have accepted : mrdOutOfRange countingPsmem mrdTagged 0 = false := by decide
  have sent := nettlpPsmemMrd_one .initial countingPsmem mrdTagged 0 (fun _ _ => 0) accepted
  have ok := all .initial countingPsmem mrdTagged 0 (fun _ _ => 0) header
    ((mrdAnswers_iff _ _ _ _ _).mpr accepted) 1 0 _ (by rw [sent]; rfl)
  have tag := (ok.fit _ _ _ header).tag
  revert tag
  decide

end Sdplane
