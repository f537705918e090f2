import Sdplane.Nettlp.EmittedHeaders
import Sdplane.Nettlp.MrdRange

/-!
# Reassembly of completions

What a peer that decodes the completions of `nettlp_psmem_mrd` with `tlp_cpld_data_length`
and `tlp_cpld_data` (`nettlp_support.c:126-147`) gets. `struct tlp_cpl_hdr` is the whole
header of a completion, and the data follows it directly, but `tlp_cpld_data` looks four
bytes further on, as if an address came in between.
-/

namespace Sdplane

open ByteMem

/-! ## The completion header -/

/-- The completion header of a frame, behind the Ethernet, IPv4, UDP and NetTLP headers. -/
def frameCplHdr (m : Mbuf) : Nat :=
  rtePktmbufMtod m + sizeofEtherHdr + sizeofIpv4Hdr + sizeofUdpHdr + sizeofNettlpHdr

/-- The bytes a completion is decoded to. -/
def cpldBytes (q : Completion) : List Byte :=
  q.frame.buf.read (tlpCpldData q.frame.buf (frameCplHdr q.frame))
    (tlpCpldDataLength q.frame.buf (frameCplHdr q.frame)).toNat

section
variable (c : NettlpConf) (b : ByteMem) (mh : Nat) (s : MrdState) (nh : Nat) (d : ByteMem)

theorem putCplHdr_lowaddr :
    cplLowaddr (putCplHdr c b mh s nh d) (nh + sizeofNettlpHdr) =
      (s.addr &&& 0x7F#64).setWidth 8 := by
  rw [cplLowaddr, putCplHdr]
  exact store8_same _ _ _

/-- The status and the byte count are set in what the request had there. -/
theorem putCplHdr_stcnt :
    cplStcnt (putCplHdr c b mh s nh d) (nh + sizeofNettlpHdr) =
      tlpSetCplBcnt (tlpSetCplStatus (b.load16 (mh + 6)) tlpCplStatusSc)
        (BitVec.ofInt 16 s.dataLen) := by
  have copied (d : ByteMem) : ByteMem.load16 (d.write (nh + sizeofNettlpHdr)
      (b.read mh sizeofTlpCplHdr)) (nh + sizeofNettlpHdr + 6) = b.load16 (mh + 6) := by
    have shifted : ∀ k < 2, d.write (nh + sizeofNettlpHdr) (b.read mh sizeofTlpCplHdr)
        (nh + sizeofNettlpHdr + 6 + k) = b (mh + 6 + k) := by
      intro k hk
      rw [Nat.add_assoc, write_at _ _ _ (by rw [length_read, sizeofTlpCplHdr]; omega),
        getElem_read, Nat.add_assoc]
    rw [ByteMem.load16, ByteMem.load16, ByteMem.read, ByteMem.read]
    refine congrArg (fun bs => BitVec.ofNat 16 (ofLe bs)) (List.map_congr_left ?_)
    intro k hk
    exact shifted k (List.mem_range.mp hk)
  unfold cplStcnt putCplHdr
  rw [load16_store8 _ (by omega), load16_store8 _ (by omega),
    load16_store16_of_disjoint _ (by omega), load16_store16_of_disjoint _ (by omega),
    load16_store16, cplStcnt, load16_store16, cplStcnt,
    load16_store16_of_disjoint _ (by omega), load16_store8 _ (by omega),
    load16_store8 _ (by omega), copied]

theorem putCplHdr_falen :
    ∃ fl, hdrFalen (putCplHdr c b mh s nh d) (nh + sizeofNettlpHdr) =
      tlpSetLength fl (BitVec.ofNat 16 (s.sendLen >>> 2)) := by
  apply Exists.intro
  unfold hdrFalen putCplHdr
  rw [load16_store8 _ (by omega), load16_store8 _ (by omega),
    load16_store16_of_disjoint _ (by omega), load16_store16_of_disjoint _ (by omega),
    load16_store16_of_disjoint _ (by omega), load16_store16_of_disjoint _ (by omega),
    load16_store16]

theorem putCplHdr_fmtType :
    ∃ ft, hdrFmtType (putCplHdr c b mh s nh d) (nh + sizeofNettlpHdr) =
      tlpSetType (tlpSetFmt ft tlpFmt3dw tlpFmtWData) tlpTypeCpl := by
  apply Exists.intro
  unfold hdrFmtType putCplHdr
  rw [store8_of_ne _ _ _ (by omega), store8_of_ne _ _ _ (by omega),
    store16_of_outside _ _ _ (by omega), store16_of_outside _ _ _ (by omega),
    store16_of_outside _ _ _ (by omega), store16_of_outside _ _ _ (by omega),
    store16_of_outside _ _ _ (by omega), store8_same, hdrFmtType, store8_same]

theorem putCplHdr_of_ge {i : Nat} (h : nh + sizeofNettlpHdr + sizeofTlpCplHdr ≤ i) :
    putCplHdr c b mh s nh d i = d i := by
  rw [sizeofNettlpHdr, sizeofTlpCplHdr] at h
  unfold putCplHdr
  simp only [sizeofNettlpHdr, sizeofTlpCplHdr]
  rw [store8_of_ne _ _ _ (by omega), store8_of_ne _ _ _ (by omega),
    store16_of_outside _ _ _ (by omega), store16_of_outside _ _ _ (by omega),
    store16_of_outside _ _ _ (by omega), store16_of_outside _ _ _ (by omega),
    store16_of_outside _ _ _ (by omega), store8_of_ne _ _ _ (by omega),
    store8_of_ne _ _ _ (by omega), write_of_ge _ _ _ (by rw [length_read]; omega),
    write_of_ge _ _ _ (by rw [List.length_replicate]; omega),
    write_of_ge _ _ _ (by rw [List.length_replicate]; omega)]

end

/-! ## The frames -/

/-- The byte of the pseudo memory that stands for an address. -/
def Psmem.byteAt (p : Psmem) (a : BitVec 64) : Byte := p.memory (a - p.addr).toNat

section
variable (c : NettlpConf) (p : Psmem) (b : ByteMem) (mh : Nat) (residual : Nat → ByteMem)
  (i : Nat) (s : MrdState)

theorem mrdTlp_buf (residual : ByteMem) :
    (mrdTlp c p b mh residual s).buf =
      (putCplHdr c b mh s 128 residual).write 146 (mrdBytes p s) := by
  simp only [mrdTlp, rtePktmbufMtod, Mbuf.modify_buf, Mbuf.append_buf, Mbuf.append_dataOff,
    Mbuf.alloc_buf, Mbuf.alloc_dataOff, rtePktmbufHeadroom, sizeofNettlpHdr, sizeofTlpCplHdr]

/-- From the packet on, the frame is what the round wrote, over what its buffer held. -/
theorem mrdCompletion_buf {j : Nat} (h : 128 ≤ j) :
    (mrdCompletion c p b mh residual i s).frame.buf j =
      (putCplHdr c b mh s 128 (residual i)).write 146 (mrdBytes p s) j := by
  have off : (mrdTlp c p b mh (residual i) s).dataOff = 128 :=
    (mrdTlp_sameHeadroom c p b mh (residual i) s).dataOff
  rw [← mrdTlp_buf]
  exact prependHeaders_of_ge c none (by omega) (by omega)

theorem frameCplHdr_mrdCompletion :
    frameCplHdr (mrdCompletion c p b mh residual i s).frame = 134 := by
  have off : (mrdTlp c p b mh (residual i) s).dataOff = 128 :=
    (mrdTlp_sameHeadroom c p b mh (residual i) s).dataOff
  have spec := (prependHeaders_spec c none (m := mrdTlp c p b mh (residual i) s) (by omega)).1
  change (prependHeaders c none (mrdTlp c p b mh (residual i) s)).dataOff + 14 + 20 + 8 + 6 = 134
  omega

/-- The data area starts right behind the header. -/
theorem mrdCompletion_data {k : Nat} :
    (mrdCompletion c p b mh residual i s).frame.buf (146 + k) =
      if k < s.sendLen then p.byteAt (((s.addr >>> 2) <<< 2) + BitVec.ofNat 64 k)
      else residual i (146 + k) := by
  have length : (mrdBytes p s).length = s.sendLen := by
    rw [mrdBytes, List.length_map, List.length_range]
  rw [mrdCompletion_buf _ _ _ _ _ _ _ (by omega)]
  split
  · rename_i sent
    rw [write_at _ _ _ (by omega)]
    simp only [mrdBytes, List.getElem_map, List.getElem_range, Psmem.byteAt, MrdState.source,
      BitVec.sub_eq_add_neg]
    congr 2
    ac_rfl
  · rename_i beyond
    rw [write_of_ge _ _ _ (by omega), putCplHdr_of_ge]
    simp only [sizeofNettlpHdr, sizeofTlpCplHdr]
    omega

/-- The header fields the decoder looks at. -/
theorem mrdCompletion_header {j : Nat} (h1 : 134 ≤ j) (h2 : j < 146) :
    (mrdCompletion c p b mh residual i s).frame.buf j =
      putCplHdr c b mh s 128 (residual i) j := by
  rw [mrdCompletion_buf _ _ _ _ _ _ _ (by omega), write_of_lt _ _ _ h2]

theorem cplLowaddr_mrdCompletion :
    ((cplLowaddr (mrdCompletion c p b mh residual i s).frame.buf 134) &&& 0x3).toNat =
      s.addr.toNat % 4 := by
  have field := putCplHdr_lowaddr c b mh s 128 (residual i)
  rw [cplLowaddr] at field ⊢
  rw [mrdCompletion_header _ _ _ _ _ _ _ (by omega) (by omega)]
  simp only [sizeofNettlpHdr, Nat.reduceAdd] at field ⊢
  rw [field, toNat_and_three _ _ rfl, BitVec.toNat_setWidth, BitVec.toNat_and]
  have low : s.addr.toNat &&& (0x7F#64).toNat = s.addr.toNat % 2 ^ 7 :=
    Nat.and_two_pow_sub_one_eq_mod _ 7
  rw [low]
  omega

theorem tlpLength_mrdCompletion (h : s.sendLen ≤ 256) :
    (tlpLength (hdrFalen (mrdCompletion c p b mh residual i s).frame.buf 134)).toNat =
      s.sendLen / 4 := by
  obtain ⟨fl, field⟩ := putCplHdr_falen c b mh s 128 (residual i)
  have same : hdrFalen (mrdCompletion c p b mh residual i s).frame.buf 134 =
      hdrFalen (putCplHdr c b mh s 128 (residual i)) (128 + sizeofNettlpHdr) :=
    load16_congr fun k hk => mrdCompletion_header _ _ _ _ _ _ _ (by omega) (by omega)
  have small : (BitVec.ofNat 16 (s.sendLen >>> 2)).toNat = s.sendLen / 4 := by
    rw [BitVec.toNat_ofNat, Nat.shiftRight_eq_div_pow]
    omega
  rw [same, field, toNat_tlpLength_tlpSetLength, small]
  omega

theorem tlpCplBcnt_mrdCompletion (h1 : 0 ≤ s.dataLen) (h2 : s.dataLen < 4096) :
    (tlpCplBcnt (cplStcnt (mrdCompletion c p b mh residual i s).frame.buf 134)).toNat =
      s.dataLen.toNat := by
  have field := putCplHdr_stcnt c b mh s 128 (residual i)
  have same : cplStcnt (mrdCompletion c p b mh residual i s).frame.buf 134 =
      cplStcnt (putCplHdr c b mh s 128 (residual i)) (128 + sizeofNettlpHdr) :=
    load16_congr fun k hk => mrdCompletion_header _ _ _ _ _ _ _ (by omega) (by omega)
  have small : (BitVec.ofInt 16 s.dataLen).toNat = s.dataLen.toNat := by
    rw [BitVec.toNat_ofInt]
    omega
  rw [same, field, toNat_tlpCplBcnt_tlpSetCplBcnt, small]
  omega

theorem tlpCpldData_mrdCompletion :
    tlpCpldData (mrdCompletion c p b mh residual i s).frame.buf 134 =
      150 + s.addr.toNat % 4 := by
  obtain ⟨ft, format⟩ := putCplHdr_fmtType c b mh s 128 (residual i)
  have same : hdrFmtType (mrdCompletion c p b mh residual i s).frame.buf 134 =
      hdrFmtType (putCplHdr c b mh s 128 (residual i)) (128 + sizeofNettlpHdr) :=
    mrdCompletion_header _ _ _ _ _ _ _ (by omega) (by omega)
  rw [tlpCpldData, same, format, if_pos (tlpFmtType_cpl ft).1, cplLowaddr_mrdCompletion,
    sizeofTlpCplHdr]

end

/-! ## What the completions of a request are decoded to -/

/-- The byte the decoder finds for byte `t` of the double words of a request: the one four
    further on, from the mbuf where that is past what the completion carries. -/
def cpldByteAt (p : Psmem) (b : ByteMem) (mh : Nat) (residual : Nat → ByteMem) (t : Nat) : Byte :=
  if t % 256 + 4 < min 256 (4 * mrLengthDw b mh - 256 * (t / 256)) then
    p.byteAt (mrAligned b mh + BitVec.ofNat 64 (t + 4))
  else residual (t / 256) (150 + t % 256)

/-- The first and the last but one byte of round `k` that belong to the request, from the
    start of the round. -/
def roundStart (o k : Nat) : Nat := if k = 0 then o else 0
def roundEnd (o n k : Nat) : Nat := min 256 (o + n - 256 * k)

section
variable (c : NettlpConf) (p : Psmem) {b : ByteMem} {mh : Nat} (residual : Nat → ByteMem)
  {addr count : BitVec 64}

theorem MrdRequest.offset_eq (h : MrdRequest b mh addr count) (hc : 1 ≤ count.toNat) :
    mrOffset b mh = addr.toNat % 4 := by
  rw [mrOffset, h.addr_eq hc]

/-- The decoder gets the number of requested bytes of a round right, from the byte count in
    the last completion and from the length field in the ones before. -/
theorem tlpCpldDataLength_round (h : MrdRequest b mh addr count) (hc : 1 ≤ count.toNat) {k : Nat}
    (hk : 256 * k < 4 * mrLengthDw b mh) :
    (tlpCpldDataLength (mrdCompletion c p b mh residual k
        (MrdState.next^[k] (.start b mh))).frame.buf 134).toNat =
      roundEnd (mrOffset b mh) count.toNat k - roundStart (mrOffset b mh) k := by
  have state := MrdState.iterate_at b mh k
  have send := state.sendLen_eq
  have left := state.dataLen
  have low : _ = roundStart (mrOffset b mh) k := state.offset
  have start_le : roundStart (mrOffset b mh) k ≤ mrOffset b mh := by
    rw [roundStart]
    split <;> omega
  have span := h.length_eq
  have limit := h.span
  have offset_lt := mrOffset_lt b mh
  rw [← h.length_eq] at limit
  rw [spanDw, ← h.offset_eq hc] at span
  -- the double words end within three bytes of the last requested one
  have enough : mrOffset b mh + count.toNat ≤ 4 * mrLengthDw b mh := by omega
  have tight : 4 * mrLengthDw b mh < mrOffset b mh + count.toNat + 4 := by omega
  clear span
  have through := mrdThrough_of_le (Nat.le_of_lt hk)
  rw [h.dataLength_eq hc, through] at left
  generalize MrdState.next^[k] (.start b mh) = s at *
  have pending : s.dataLen + roundStart (mrOffset b mh) k =
      ((mrOffset b mh + count.toNat - 256 * k : Nat) : Int) := by
    rw [roundStart, left]
    split <;> omega
  have lowaddr := cplLowaddr_mrdCompletion c p b mh residual k s
  have length := tlpLength_mrdCompletion c p b mh residual k s (by omega)
  have bcnt := tlpCplBcnt_mrdCompletion c p b mh residual k s (by omega) (by omega)
  have all : (roundStart (mrOffset b mh) k + s.dataLen.toNat + 3) / 4 =
      mrLengthDw b mh - 64 * k := by omega
  have sent : s.sendLen / 4 = min 64 (mrLengthDw b mh - 64 * k) := by omega
  rw [tlpCpldDataLength]
  simp only [lowaddr, length, bcnt, low, Nat.shiftRight_eq_div_pow, Nat.shiftLeft_eq, roundEnd,
    Nat.reducePow, all, sent]
  by_cases last : mrLengthDw b mh - 64 * k ≤ 64
  · rw [if_pos (Nat.min_eq_right last)]
    omega
  · rw [if_neg (by omega)]
    omega

/-- What round `k` is decoded to. -/
theorem cpldBytes_round (h : MrdRequest b mh addr count) (hc : 1 ≤ count.toNat) {k : Nat}
    (hk : 256 * k < 4 * mrLengthDw b mh) :
    cpldBytes (mrdCompletion c p b mh residual k (MrdState.next^[k] (.start b mh))) =
      (List.range (roundEnd (mrOffset b mh) count.toNat k - roundStart (mrOffset b mh) k)).map
        fun i => cpldByteAt p b mh residual (256 * k + roundStart (mrOffset b mh) k + i) := by
  have state := MrdState.iterate_at b mh k
  rw [cpldBytes, frameCplHdr_mrdCompletion, tlpCpldDataLength_round c p residual h hc hk,
    tlpCpldData_mrdCompletion, state.offset, ByteMem.read]
  apply List.map_congr_left
  intro i hi
  rw [List.mem_range, roundEnd] at hi
  have through := mrdThrough_of_le (Nat.le_of_lt hk)
  change (mrdCompletion c p b mh residual k (MrdState.next^[k] (.start b mh))).frame.buf
    (150 + roundStart (mrOffset b mh) k + i) = _
  rw [show 150 + roundStart (mrOffset b mh) k + i =
      146 + (roundStart (mrOffset b mh) k + i + 4) by omega,
    mrdCompletion_data, state.sendLen_eq, state.aligned, through, cpldByteAt,
    show (256 * k + roundStart (mrOffset b mh) k + i) % 256 = roundStart (mrOffset b mh) k + i by
      omega,
    show (256 * k + roundStart (mrOffset b mh) k + i) / 256 = k by omega, BitVec.add_assoc,
    ← BitVec.ofNat_add]
  simp only [Nat.add_assoc, show 146 + (roundStart (mrOffset b mh) k + (i + 4)) =
    150 + (roundStart (mrOffset b mh) k + i) by omega]

/-- The rounds up to the `n`-th, put together. -/
theorem flatMap_rounds {o m : Nat} (f : Nat → Byte) (hm : 1 ≤ m) (ho : o < 4) (n : Nat)
    (hn : 256 * (n - 1) < o + m) :
    ((List.range n).flatMap fun k => (List.range (roundEnd o m k - roundStart o k)).map
        fun i => f (256 * k + roundStart o k + i)) =
      (List.range (min (256 * n) (o + m) - o)).map fun i => f (o + i) := by
  induction n with
  | zero => simp
  | succ n ih =>
      have before := ih (by omega)
      have size : min (256 * (n + 1)) (o + m) - o =
          (min (256 * n) (o + m) - o) + (roundEnd o m n - roundStart o n) := by
        rw [roundEnd, roundStart]
        split <;> omega
      have place : o + (min (256 * n) (o + m) - o) = 256 * n + roundStart o n := by
        rw [roundStart]
        split <;> omega
      rw [List.range_succ, List.flatMap_append, before, size, List.range_add, List.map_append,
        List.flatMap_singleton, List.map_map]
      congr 1
      apply List.map_congr_left
      intro i _
      rw [Function.comp_apply, ← Nat.add_assoc, place]

/-- The completions of an answered request are those of the rounds that carry its double
    words, once there is fuel for them. -/
theorem nettlpPsmemMrd_of_request (h : MrdRequest b mh addr count) (hc : 1 ≤ count.toNat)
    (accepted : mrdOutOfRange p b mh = false) (fuel : Nat) :
    nettlpPsmemMrd c p b mh residual fuel =
      if (4 * mrLengthDw b mh - 1) / 256 < fuel then
        (DoWhile.rounds (mrdCompletion c p b mh residual) MrdState.next
          ((4 * mrLengthDw b mh - 1) / 256 + 1) 0 (.start b mh), true)
      else
        (DoWhile.rounds (mrdCompletion c p b mh residual) MrdState.next fuel 0 (.start b mh),
          false) := by
  have span := h.length_eq
  have offset := h.offset_eq hc
  rw [spanDw, ← offset] at span
  have sum := h.disabled_eq hc
  have more : ∀ j, 256 * (j + 1) < 4 * mrLengthDw b mh →
      MrdState.again (MrdState.next^[j + 1] (.start b mh)) = true := by
    intro j hj
    rw [MrdState.again_iff, h.dataLength_eq hc, mrdThrough]
    omega
  have last : MrdState.again (MrdState.next^[(4 * mrLengthDw b mh - 1) / 256 + 1]
      (.start b mh)) = false :=
    mrd_ends_of_le_disabled (by omega) (by omega)
  rw [nettlpPsmemMrd_of_accepted c residual _ accepted]
  split
  · rename_i bound
    exact DoWhile.run_of_first _ (fun j hj => more j (by omega)) last bound
  · rename_i short
    exact DoWhile.run_of_again _ fun j hj => more j (by omega)

/-- The `count` memory bytes at `addr`. -/
def Psmem.bytesAt (p : Psmem) (addr count : BitVec 64) : List Byte :=
  (List.range count.toNat).map fun k => p.byteAt (addr + BitVec.ofNat 64 k)

/-- The loop ends, and decoding its completions in order gives the memory bytes. -/
def MrdReassembles (b : ByteMem) (mh : Nat) (addr count : BitVec 64) : Prop :=
  ∃ fuel, (nettlpPsmemMrd c p b mh residual fuel).2 = true ∧
    (nettlpPsmemMrd c p b mh residual fuel).1.flatMap cpldBytes = p.bytesAt addr count

theorem flatMap_cpldBytes (h : MrdRequest b mh addr count) (hc : 1 ≤ count.toNat) :
    (DoWhile.rounds (mrdCompletion c p b mh residual) MrdState.next
        ((4 * mrLengthDw b mh - 1) / 256 + 1) 0 (.start b mh)).flatMap cpldBytes =
      (List.range count.toNat).map fun k =>
        cpldByteAt p b mh residual (mrOffset b mh + k) := by
  have span := h.length_eq
  have offset := h.offset_eq hc
  rw [spanDw, ← offset] at span
  have offset_lt := mrOffset_lt b mh
  have whole : min (256 * ((4 * mrLengthDw b mh - 1) / 256 + 1)) (mrOffset b mh + count.toNat) -
      mrOffset b mh = count.toNat := by omega
  have tiles := flatMap_rounds (cpldByteAt p b mh residual) hc offset_lt
    ((4 * mrLengthDw b mh - 1) / 256 + 1) (by omega)
  rw [whole] at tiles
  rw [DoWhile.rounds, List.flatMap_map, ← tiles]
  apply List.flatMap_congr
  intro k hk
  rw [List.mem_range] at hk
  rw [Nat.zero_add, cpldBytes_round c p residual h hc (by omega)]

/-- Decoding the completions of an answered request gives the requested bytes exactly when
    each of them equals what lies four bytes further on in its completion. -/
theorem nettlpPsmemMrd_reassembles_iff (h : MrdRequest b mh addr count) (hc : 1 ≤ count.toNat)
    (answered : MrdAnswers c p b mh residual) :
    MrdReassembles c p residual b mh addr count ↔
      ∀ k < count.toNat, cpldByteAt p b mh residual (addr.toNat % 4 + k) =
        p.byteAt (addr + BitVec.ofNat 64 k) := by
  have accepted := (mrdAnswers_iff c p b mh residual).mp answered
  have decoded := flatMap_cpldBytes c p residual h hc
  rw [← h.offset_eq hc]
  have bytes : (DoWhile.rounds (mrdCompletion c p b mh residual) MrdState.next
        ((4 * mrLengthDw b mh - 1) / 256 + 1) 0 (.start b mh)).flatMap cpldBytes =
          p.bytesAt addr count ↔
      ∀ k < count.toNat, cpldByteAt p b mh residual (mrOffset b mh + k) =
        p.byteAt (addr + BitVec.ofNat 64 k) := by
    rw [decoded, Psmem.bytesAt, List.map_inj_left]
    simp only [List.mem_range]
  rw [← bytes]
  constructor
  · rintro ⟨fuel, returned, same⟩
    rw [nettlpPsmemMrd_of_request c p residual h hc accepted] at returned same
    split at returned <;> rename_i enough
    · rw [if_pos enough] at same
      exact same
    · exact Bool.noConfusion returned
  · intro same
    refine ⟨(4 * mrLengthDw b mh - 1) / 256 + 1, ?_⟩
    rw [nettlpPsmemMrd_of_request c p residual h hc accepted, if_pos (Nat.lt_succ_self _)]
    exact ⟨rfl, same⟩

end

/-- A request for the first double word of a memory at 0x1000. -/
def mrdFirstDw : ByteMem := ByteMem.ofList [0x00, 0, 0, 1, 0, 0, 0, 0x0F, 0x00, 0x00, 0x10, 0x00]

/-- An 8 KiB memory at 0x1000 whose bytes count up from one. -/
def countingPsmem : Psmem := ⟨0x1000, 0x2000, fun i => BitVec.ofNat 8 (i + 1)⟩

theorem mrdFirstDw_request : MrdRequest mrdFirstDw 0 0x1000 4 where
  field := by decide
  fstdw := by decide
  lstdw := by decide
  length := by decide
  span := by decide
  inSpace := by decide

theorem mrdFirstDw_answered :
    MrdAnswers .initial countingPsmem mrdFirstDw 0 (fun _ _ => 0) := by
  rw [mrdAnswers_iff]
  decide

theorem nettlpPsmemMrd_reassembles_firstDw :
    MrdReassembles .initial countingPsmem (fun _ _ => 0) mrdFirstDw 0 0x1000 4 ↔
      ∀ k < (4#64).toNat, cpldByteAt countingPsmem mrdFirstDw 0 (fun _ _ => 0)
        ((0x1000#64).toNat % 4 + k) = countingPsmem.byteAt (0x1000 + BitVec.ofNat 64 k) :=
  nettlpPsmemMrd_reassembles_iff .initial countingPsmem (fun _ _ => 0) mrdFirstDw_request
    (by decide) mrdFirstDw_answered

/-- The four bytes requested are 1, 2, 3, 4; the decoder finds what the mbuf held behind
    them. -/
theorem nettlpPsmemMrd_reassembles_not :
    ¬ ∀ (c : NettlpConf) (p : Psmem) (residual : Nat → ByteMem) (b : ByteMem) (mh : Nat)
      (addr count : BitVec 64), p.addr.toNat % 4 = 0 → MrdRequest b mh addr count →
        1 ≤ count.toNat → MrdAnswers c p b mh residual →
          MrdReassembles c p residual b mh addr count := by
  intro exact'
  obtain ⟨fuel, returned, same⟩ := exact' .initial countingPsmem (fun _ _ => 0) mrdFirstDw 0
    0x1000 4 (by decide) mrdFirstDw_request (by decide) mrdFirstDw_answered
  rw [nettlpPsmemMrd_of_request _ _ _ mrdFirstDw_request (by decide) (by decide)] at returned same
  split at returned <;> rename_i enough
  · rw [if_pos enough, flatMap_cpldBytes _ _ _ mrdFirstDw_request (by decide)] at same
    revert same
    decide
  · exact Bool.noConfusion returned

end Sdplane
