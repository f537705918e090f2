import Sdplane.Nettlp.DmaWrite

/-!
# The stores of a DMA write

What `nettlp_send_dma_write` appends to its mbuf and stores into it (`nettlp.c:131-220`), in
order. A store goes where the code's pointer points, and the pointers do not know whether the
append before them found room.
-/

namespace Sdplane

open ByteMem

/-- An append, or a store to the `n` bytes from offset `p` on. -/
inductive MbufAct where
  | append (len : Nat)
  | store (p n : Nat) (f : ByteMem → ByteMem)

def runMbufActs : List MbufAct → Mbuf → Mbuf
  | [], m => m
  | .append len :: acts, m => runMbufActs acts (rtePktmbufAppend m len)
  | .store _ _ f :: acts, m => runMbufActs acts (m.modify f)

/-- Every store goes to bytes of the packet as it is then. -/
def StoresInside : List MbufAct → Mbuf → Prop
  | [], _ => True
  | .append len :: acts, m => StoresInside acts (rtePktmbufAppend m len)
  | .store p n f :: acts, m =>
      (∀ k < n, m.dataOff ≤ p + k ∧ p + k < m.dataOff + m.dataLen) ∧ StoresInside acts (m.modify f)

/-- A store leaves all bytes but those it names. -/
def MbufAct.Local : MbufAct → Prop
  | append _ => True
  | store p n f => ∀ b i, i < p ∨ p + n ≤ i → f b i = b i

/-! ## The acts of a DMA write -/

/-- The store of the address. -/
def putMrAddr (c : NettlpConf) (mh : Nat) (b : ByteMem) : ByteMem :=
  if addrIs32 c then
    b.store32 (mh + sizeofTlpMrHdr) (htobe32 ((c.memoryAddr &&& 0xFFFFFFFC#64).setWidth 32))
  else b.store64 (mh + sizeofTlpMrHdr) (htobe64 (c.memoryAddr &&& 0xFFFFFFFFFFFFFFFC#64))

/-- The request header and the address. -/
def mrHdrActs (c : NettlpConf) (mh : Nat) : List MbufAct :=
  [.append (sizeofNettlpHdr + sizeofTlpMrHdr),
    .store (mh + 4) 2 (·.store16 (mh + 4) (htons c.requester)),
    .store (mh + 6) 1 (·.store8 (mh + 6) c.pciTag),
    .store (mh + 7) 1 (setMrLstdw · mh (lstdwOf c.memoryAddr c.payloadCount)),
    .store (mh + 7) 1 (setMrFstdw · mh (fstdwOf c.memoryAddr c.payloadCount)),
    .store (mh + 2) 2 (fun b => b.store16 (mh + 2)
      (tlpSetLength (hdrFalen b mh) ((tlpCalculateLength c.memoryAddr c.payloadCount).setWidth 16))),
    .store mh 1 (fun b => b.store8 mh (tlpSetType (hdrFmtType b mh) tlpTypeMWr)),
    .store mh 1 (fun b => b.store8 mh
      (tlpSetFmt (hdrFmtType b mh) (if addrIs32 c then tlpFmt3dw else tlpFmt4dw) tlpFmtWData)),
    .append (addrLen c),
    .store (mh + sizeofTlpMrHdr) (addrLen c) (putMrAddr c mh)]

/-- An append and a store to the bytes it is for. -/
def fillActs (p : Nat) (bs : List Byte) : List MbufAct :=
  [.append bs.length, .store p bs.length (·.write p bs)]

/-- The padding, if there is any. -/
def padActs (pad padLen : Nat) : List MbufAct :=
  if padLen ≠ 0 then fillActs pad (List.replicate padLen 0) else []

/-- `nettlp_send_dma_write` on the fresh mbuf `m`, up to the UDP header. -/
def dmaWriteActs (c : NettlpConf) (m : Mbuf) : List MbufAct :=
  mrHdrActs c (m.dataOff + sizeofNettlpHdr) ++ padActs (dmaArea c m) (dmaLead c) ++
    fillActs (dmaArea c m + dmaLead c) (c.payloadString.read 0 c.payloadSize) ++
    padActs (dmaArea c m + dmaLead c + c.payloadSize) (dmaTrail c)

theorem runMbufActs_append (acts acts' : List MbufAct) (m : Mbuf) :
    runMbufActs (acts ++ acts') m = runMbufActs acts' (runMbufActs acts m) := by
  induction acts generalizing m with
  | nil => rfl
  | cons act acts ih =>
      cases act with
      | append len => exact ih _
      | store p n f => exact ih _

theorem storesInside_append (acts acts' : List MbufAct) (m : Mbuf) :
    StoresInside (acts ++ acts') m ↔
      StoresInside acts m ∧ StoresInside acts' (runMbufActs acts m) := by
  induction acts generalizing m with
  | nil => exact (and_iff_right trivial).symm
  | cons act acts ih =>
      cases act with
      | append len => exact ih _
      | store p n f =>
          rw [List.cons_append, StoresInside, StoresInside, ih, and_assoc]
          rfl

theorem Mbuf.append_modify (m : Mbuf) (len : Nat) (f : ByteMem → ByteMem) :
    rtePktmbufAppend (m.modify f) len = (rtePktmbufAppend m len).modify f := by
  by_cases room : m.dataOff + m.dataLen + len % 2 ^ 16 ≤ m.bufLen
  · have room' : (m.modify f).dataOff + (m.modify f).dataLen + len % 2 ^ 16 ≤
        (m.modify f).bufLen := room
    rw [rtePktmbufAppend, rtePktmbufAppend, dif_pos room, dif_pos room']
    rfl
  · have room' : ¬ (m.modify f).dataOff + (m.modify f).dataLen + len % 2 ^ 16 ≤
        (m.modify f).bufLen := room
    rw [rtePktmbufAppend, rtePktmbufAppend, dif_neg room, dif_neg room']

theorem Mbuf.modify_modify (m : Mbuf) (f g : ByteMem → ByteMem) :
    (m.modify f).modify g = m.modify fun b => g (f b) := rfl

section
variable (c : NettlpConf) (m : Mbuf)

theorem putMrHdr_eq (mh : Nat) (b : ByteMem) :
    putMrHdr c c.payloadSize tlpTypeMWr tlpFmtWData mh b =
      putMrAddr c mh (putMrFields c c.payloadSize tlpTypeMWr tlpFmtWData mh b) := by
  unfold putMrHdr putMrAddr putMrFields
  cases addrIs32 c <;> rfl

theorem runMbufActs_mrHdrActs :
    runMbufActs (mrHdrActs c (m.dataOff + sizeofNettlpHdr)) m =
      appendMrHdr c c.payloadSize tlpTypeMWr tlpFmtWData m := by
  have hdr : putMrHdr c c.payloadSize tlpTypeMWr tlpFmtWData (m.dataOff + sizeofNettlpHdr) =
      fun b => putMrAddr c (m.dataOff + sizeofNettlpHdr)
        (putMrFields c c.payloadSize tlpTypeMWr tlpFmtWData (m.dataOff + sizeofNettlpHdr) b) :=
    funext fun b => putMrHdr_eq c _ b
  simp only [mrHdrActs, runMbufActs, appendMrHdr, rtePktmbufMtod, Mbuf.append_dataOff, hdr,
    Mbuf.append_modify, Mbuf.modify_modify]
  rfl

theorem runMbufActs_fillActs (p : Nat) (bs : List Byte) :
    runMbufActs (fillActs p bs) m = (rtePktmbufAppend m bs.length).modify (·.write p bs) := rfl

theorem runMbufActs_padActs (pad padLen : Nat) :
    runMbufActs (padActs pad padLen) m = appendPad pad padLen m := by
  unfold padActs appendPad
  split
  · rw [runMbufActs_fillActs, List.length_replicate]
  · rfl

/-- The acts are those of the TLP that is built. -/
theorem runMbufActs_dmaWriteActs : runMbufActs (dmaWriteActs c m) m = dmaWriteTlp c m := by
  rw [dmaWriteActs, runMbufActs_append, runMbufActs_append, runMbufActs_append,
    runMbufActs_mrHdrActs, runMbufActs_padActs, runMbufActs_fillActs, runMbufActs_padActs,
    length_read, dmaWriteTlp_eq]

end

/-! ## What the stores change -/

theorem local_mrHdrActs (c : NettlpConf) (mh : Nat) : ∀ act ∈ mrHdrActs c mh, act.Local := by
  simp only [mrHdrActs, List.forall_mem_cons]
  refine ⟨trivial, ?_, ?_, ?_, ?_, ?_, ?_, ?_, trivial, ?_, fun _ none => absurd none List.not_mem_nil⟩
  · exact fun b _ outside => store16_of_outside b _ _ outside
  · exact fun b _ outside => store8_of_ne b _ _ (by omega)
  · exact fun b _ outside => store8_of_ne b _ _ (by omega)
  · exact fun b _ outside => store8_of_ne b _ _ (by omega)
  · exact fun b _ outside => store16_of_outside b _ _ outside
  · exact fun b _ outside => store8_of_ne b _ _ (by omega)
  · exact fun b _ outside => store8_of_ne b _ _ (by omega)
  · intro b i outside
    rw [addrLen] at outside
    rw [putMrAddr]
    split
    · rename_i short
      rw [if_pos short] at outside
      exact store32_of_outside b _ _ outside
    · rename_i long
      rw [if_neg long] at outside
      exact store64_of_outside b _ _ outside

theorem local_fillActs (p : Nat) (bs : List Byte) : ∀ act ∈ fillActs p bs, act.Local := by
  simp only [fillActs, List.forall_mem_cons]
  refine ⟨trivial, ?_, fun _ none => absurd none List.not_mem_nil⟩
  exact fun b _ outside => write_of_outside b p bs outside

theorem local_padActs (pad padLen : Nat) : ∀ act ∈ padActs pad padLen, act.Local := by
  rw [padActs]
  split
  · exact local_fillActs pad _
  · exact fun _ none => absurd none List.not_mem_nil

/-- The stores of a DMA write are named with all bytes they change. -/
theorem local_dmaWriteActs (c : NettlpConf) (m : Mbuf) : ∀ act ∈ dmaWriteActs c m, act.Local := by
  simp only [dmaWriteActs, List.mem_append, or_imp, forall_and]
  exact ⟨⟨⟨local_mrHdrActs c _, local_padActs _ _⟩, local_fillActs _ _⟩, local_padActs _ _⟩

/-! ## Where the stores go -/

section
variable {m : Mbuf}

theorem dataLen_le_runMbufActs (acts : List MbufAct) (m : Mbuf) :
    m.dataLen ≤ (runMbufActs acts m).dataLen := by
  induction acts generalizing m with
  | nil => exact Nat.le_refl _
  | cons act acts ih =>
      cases act with
      | append len => exact (m.dataLen_le_append len).trans (ih _)
      | store p n f => exact ih (m.modify f)

theorem storesInside_fillActs {p : Nat} {bs : List Byte} (here : p = m.dataOff + m.dataLen)
    (small : bs.length < 2 ^ 16) :
    StoresInside (fillActs p bs) m ↔
      bs.length = 0 ∨ m.dataOff + m.dataLen + bs.length ≤ m.bufLen := by
  have grown := Mbuf.append_dataLen_eq m bs.length
  rw [Nat.mod_eq_of_lt small] at grown
  simp only [fillActs, StoresInside, and_true, Mbuf.append_dataOff, grown]
  constructor
  · intro inside
    by_contra neither
    obtain ⟨some, full⟩ := not_or.mp neither
    have first := inside 0 (by omega)
    rw [if_neg full] at first
    omega
  · intro room k hk
    rw [if_pos (by omega)]
    omega

theorem storesInside_padActs {pad padLen : Nat} (here : pad = m.dataOff + m.dataLen)
    (small : padLen < 2 ^ 16) :
    StoresInside (padActs pad padLen) m ↔
      padLen = 0 ∨ m.dataOff + m.dataLen + padLen ≤ m.bufLen := by
  rw [padActs]
  split
  · rw [storesInside_fillActs here (by rwa [List.length_replicate]), List.length_replicate]
  · rename_i none
    exact iff_of_true trivial (.inl (not_not.mp none))

/-- The header and the address go where they were appended. -/
theorem storesInside_mrHdrActs (c : NettlpConf) (empty : m.dataLen = 0)
    (room : m.dataOff + 22 ≤ m.bufLen) :
    StoresInside (mrHdrActs c (m.dataOff + sizeofNettlpHdr)) m := by
  have short := addrLen_le_eight c
  have first : (rtePktmbufAppend m (sizeofNettlpHdr + sizeofTlpMrHdr)).dataLen = 14 := by
    rw [Mbuf.append_dataLen (by simp only [sizeofNettlpHdr, sizeofTlpMrHdr]; omega), empty]
    rfl
  have second : (rtePktmbufAppend (rtePktmbufAppend m (sizeofNettlpHdr + sizeofTlpMrHdr))
      (addrLen c)).dataLen = 14 + addrLen c := by
    rw [Mbuf.append_dataLen, first]
    rw [Mbuf.append_dataOff, Mbuf.append_bufLen, first]
    omega
  simp only [mrHdrActs, StoresInside, Mbuf.append_modify, Mbuf.modify_dataOff, Mbuf.modify_dataLen,
    Mbuf.append_dataOff, first, second]
  simp only [sizeofNettlpHdr, sizeofTlpMrHdr]
  refine ⟨?_, ?_, ?_, ?_, ?_, ?_, ?_, ?_, trivial⟩ <;> intro k hk <;> omega

end

/-! ## The padding in plain arithmetic -/

theorem leadPad_le (be : BitVec 4) : leadPad be ≤ 3 := by
  revert be
  decide

theorem trailPad_le (be : BitVec 4) : trailPad be ≤ 3 := by
  revert be
  decide

/-- Shifted far enough, the four bits are all out. -/
theorem not_shiftLeft_and (n : Nat) (far : 4 ≤ n) :
    ((~~~(0xF#32 <<< n) &&& 0xF).setWidth 4 : BitVec 4) = 0xF := by
  apply BitVec.eq_of_getLsbD_eq
  intro i hi
  have out : i < n := by omega
  interval_cases i <;> simp [out]

/-- A write across the end of the address space has no byte enables of its own in the last DW, or
    all of them. -/
theorem lstdwOf_of_wrap {addr count : BitVec 64} (hc : 8 ≤ count.toNat)
    (small : count.toNat < 2 ^ 32) (wrap : 2 ^ 64 < addr.toNat + count.toNat) :
    lstdwOf addr count = 0 ∨ lstdwOf addr count = 0xF := by
  have ha := addr.isLt
  have stop : (addr + count).toNat = (addr.toNat + count.toNat) % 2 ^ 64 := BitVec.toNat_add _ _
  have next : (addr + 4#64).toNat = (addr.toNat + 4) % 2 ^ 64 := BitVec.toNat_add _ _
  have before : (if (addr + count) &&& 0x3#64 = 0 then addr + count - 4#64
      else ((addr + count) >>> 2) <<< 2) ≤ (addr >>> 2) <<< 2 := by
    rw [BitVec.le_def, toNat_shift_align, toNat_beforeEnd, stop]
    split <;> omega
  simp only [lstdwOf, tlpCalculateLstdw]
  rw [if_pos before]
  split
  · exact .inl rfl
  · rename_i full
    rw [BitVec.lt_def, stop, next] at full
    refine .inr (not_shiftLeft_and _ ?_)
    rw [BitVec.toNat_sub, stop, next]
    omega

/-- The bytes behind the payload up to the end of its double word. -/
def dmaWriteTail (c : NettlpConf) : Nat :=
  if c.memoryAddr.toNat + c.payloadSize ≤ 2 ^ 64 then
    (4 - (c.memoryAddr.toNat + c.payloadSize) % 4) % 4
  else 0

/-- The headers, the address and the double words of the payload. -/
def dmaWriteSize (c : NettlpConf) : Nat :=
  sizeofNettlpHdr + sizeofTlpMrHdr + addrLen c + c.memoryAddr.toNat % 4 + c.payloadSize +
    dmaWriteTail c

/-- The tailroom of a fresh mbuf. -/
def dmaTailroom : Nat := l2fwdPktmbufPool.bufLen - rtePktmbufHeadroom

section
variable (c : NettlpConf)

theorem dmaLead_of_eight_le (limit : c.payloadSize ≤ 4096) (large : 8 ≤ c.payloadSize) :
    dmaLead c = c.memoryAddr.toNat % 4 := by
  have count := @NettlpConf.toNat_payloadCount c (by omega)
  rw [dmaLead, leadPad_fstdwOf (by omega), if_pos (by omega)]

theorem dmaTrail_of_eight_le (limit : c.payloadSize ≤ 4096) (large : 8 ≤ c.payloadSize) :
    dmaTrail c = dmaWriteTail c := by
  have count := @NettlpConf.toNat_payloadCount c (by omega)
  rw [dmaTrail, dmaWriteTail]
  split
  · rw [trailPad_lstdwOf (by omega) (by omega), if_neg (by omega), count]
    omega
  · rename_i wrap
    rcases @lstdwOf_of_wrap c.memoryAddr c.payloadCount (by omega) (by omega) (by omega) with
      none | all
    · rw [none]
      rfl
    · rw [all]
      rfl

/-- Whether the TLP fits is a question of the double words of the payload. -/
theorem dmaWrite_fits_iff (limit : c.payloadSize ≤ 4096) :
    14 + addrLen c + dmaLead c + c.payloadSize + dmaTrail c ≤ dmaTailroom ↔
      dmaWriteSize c ≤ dmaTailroom := by
  have short := addrLen_le_eight c
  have room : dmaTailroom = 2048 := rfl
  rw [room, dmaWriteSize, sizeofNettlpHdr, sizeofTlpMrHdr]
  by_cases large : 8 ≤ c.payloadSize
  · rw [dmaLead_of_eight_le c limit large, dmaTrail_of_eight_le c limit large]
  · have lead : dmaLead c ≤ 3 := leadPad_le _
    have trail : dmaTrail c ≤ 3 := trailPad_le _
    have tail : dmaWriteTail c ≤ 3 := by
      rw [dmaWriteTail]
      split <;> omega
    omega

/-- All stores go to bytes that were appended just if header, padding and payload have room. -/
theorem storesInside_dmaWriteActs (residual : ByteMem) (limit : c.payloadSize ≤ 4096) :
    StoresInside (dmaWriteActs c (rtePktmbufAlloc l2fwdPktmbufPool residual))
        (rtePktmbufAlloc l2fwdPktmbufPool residual) ↔
      14 + addrLen c + dmaLead c + c.payloadSize + dmaTrail c ≤ dmaTailroom := by
  have short := addrLen_le_eight c
  have lead : dmaLead c ≤ 3 := leadPad_le _
  have trail : dmaTrail c ≤ 3 := trailPad_le _
  have off : (rtePktmbufAlloc l2fwdPktmbufPool residual).dataOff = 128 := rfl
  have len : (rtePktmbufAlloc l2fwdPktmbufPool residual).dataLen = 0 := rfl
  have bufLen : (rtePktmbufAlloc l2fwdPktmbufPool residual).bufLen = 2176 := rfl
  have tailroom : dmaTailroom = 2048 := rfl
  generalize rtePktmbufAlloc l2fwdPktmbufPool residual = m at *
  have header := storesInside_mrHdrActs c len (by omega)
  have area : dmaArea c m = 142 + addrLen c := by
    rw [dmaArea, off]
  obtain ⟨off₁, bufLen₁, len₁⟩ := appendMrHdr_spec c (m := m) c.payloadSize tlpTypeMWr tlpFmtWData
    (by omega)
  simp only [dmaWriteActs, storesInside_append, header, true_and, runMbufActs_append,
    runMbufActs_mrHdrActs, runMbufActs_padActs, runMbufActs_fillActs, length_read]
  generalize appendMrHdr c c.payloadSize tlpTypeMWr tlpFmtWData m = m₁ at *
  have pad : StoresInside (padActs (dmaArea c m) (dmaLead c)) m₁ :=
    (storesInside_padActs (by omega) (by omega)).mpr (.inr (by omega))
  have off₂ := appendPad_dataOff (dmaArea c m) (dmaLead c) m₁
  have bufLen₂ := appendPad_bufLen (dmaArea c m) (dmaLead c) m₁
  have len₂ := appendPad_dataLen (dmaArea c m) (dmaLead c) m₁ (by omega)
  rw [and_iff_right pad]
  generalize appendPad (dmaArea c m) (dmaLead c) m₁ = m₂ at *
  have size : (c.payloadString.read 0 c.payloadSize).length = c.payloadSize := length_read _ _ _
  rw [storesInside_fillActs (by omega) (by omega), size]
  by_cases fits : m₂.dataOff + m₂.dataLen + c.payloadSize ≤ m₂.bufLen
  · have len₃ := Mbuf.append_dataLen fits
    rw [and_iff_right (Or.inr fits), storesInside_padActs]
    · simp only [Mbuf.modify_dataOff, Mbuf.modify_dataLen, Mbuf.modify_bufLen, Mbuf.append_dataOff,
        Mbuf.append_bufLen, len₃]
      omega
    · simp only [Mbuf.modify_dataOff, Mbuf.modify_dataLen, Mbuf.append_dataOff, len₃]
      omega
    · omega
  · -- the payload goes behind the packet, however the padding after it ends up
    refine iff_of_false ?_ (by omega)
    rintro ⟨none | some, -⟩
    · omega
    · exact fits some

/-- All stores of a DMA write go to bytes that were appended exactly if its headers and the double
    words of its payload fit the tailroom of a fresh mbuf. -/
theorem storesInside_dmaWriteActs_iff (residual : ByteMem) (limit : c.payloadSize ≤ 4096) :
    StoresInside (dmaWriteActs c (rtePktmbufAlloc l2fwdPktmbufPool residual))
        (rtePktmbufAlloc l2fwdPktmbufPool residual) ↔
      dmaWriteSize c ≤ dmaTailroom :=
  (storesInside_dmaWriteActs c residual limit).trans (dmaWrite_fits_iff c limit)

end

theorem storesInside_dmaWriteActs_fourBytes :
    StoresInside (dmaWriteActs dmaFourBytes (rtePktmbufAlloc l2fwdPktmbufPool fun _ => 0))
        (rtePktmbufAlloc l2fwdPktmbufPool fun _ => 0) ↔
      dmaWriteSize dmaFourBytes ≤ dmaTailroom :=
  storesInside_dmaWriteActs_iff dmaFourBytes (fun _ => 0) (by decide)

/-- As many bytes as the command takes. -/
def dmaLongest : NettlpConf := { NettlpConf.initial with payloadSize := 4096 }

theorem storesInside_dmaWriteActs_not :
    ¬ ∀ (c : NettlpConf) (residual : ByteMem), c.payloadSize ≤ 4096 →
      StoresInside (dmaWriteActs c (rtePktmbufAlloc l2fwdPktmbufPool residual))
        (rtePktmbufAlloc l2fwdPktmbufPool residual) := by
  intro all
  have limit : dmaLongest.payloadSize ≤ 4096 := Nat.le_refl 4096
  have fits := (storesInside_dmaWriteActs dmaLongest (fun _ => 0) limit).mp (all _ _ limit)
  have size : dmaLongest.payloadSize = 4096 := rfl
  have room : dmaTailroom = 2048 := rfl
  omega

end Sdplane
