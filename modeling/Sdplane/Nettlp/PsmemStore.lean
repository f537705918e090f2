import Sdplane.Misc.ByteStore
import Sdplane.Nettlp.MwrBytes
import Sdplane.Nettlp.Reassembly
import Sdplane.Nettlp.Receive

/-!
# The pseudo memory as a byte store

What the NetTLP thread makes of the frames it receives, one after the other
(`nettlp_psmem_receive` with its two handlers, `nettlp.c:531-717`), against a byte store that
is read and written by address. The frames carry memory requests laid out with the
`tlp_calculate_*` functions, or none.
-/

namespace Sdplane

open ByteMem

/-! ## Requests in frames -/

/-- A received frame: the buffer it is in, the offset its packet starts at, and what the
    mbufs allocated for the answers hold. -/
structure PsmemFrame where
  b : ByteMem
  eth : Nat
  residual : Nat → ByteMem

/-- The offset of the TLP. -/
def PsmemFrame.tlp (f : PsmemFrame) : Nat := f.eth + rxTlpOffset

/-- The frame carries the request. Its double words do not reach past the end of the address
    space. -/
inductive PsmemFrame.Carries (f : PsmemFrame) : StoreRequest → Prop
  | read {addr count : BitVec 64} (isMrd : rxIsMrd f.b f.eth = true)
      (request : MrdRequest f.b f.tlp addr count) (pos : 1 ≤ count.toNat)
      (inSpace : addr.toNat + 4 * spanDw addr count < 2 ^ 64) :
      Carries f (.read addr.toNat count.toNat)
  | write {addr count : BitVec 64} (isMwr : rxIsMwr f.b f.eth = true)
      (request : MrdRequest f.b f.tlp addr count) (pos : 1 ≤ count.toNat)
      (inSpace : addr.toNat + 4 * spanDw addr count < 2 ^ 64) :
      Carries f (.write addr.toNat
        (f.b.read (mwrDataArea f.b f.tlp + addr.toNat % 4) count.toNat))
  | other (notMrd : rxIsMrd f.b f.eth = false) (notMwr : rxIsMwr f.b f.eth = false) :
      Carries f .other

/-- The requests the range tests let through. A read counts as many double words from its
    first byte on as it touches. -/
def Psmem.accepts (p : Psmem) : StoreRequest → Bool
  | .read addr count => p.addr.toNat ≤ addr ∧ addr + 4 * ((addr % 4 + count + 3) / 4) ≤ p.endAddr
  | .write addr bytes => p.addr.toNat ≤ addr ∧ addr + bytes.length ≤ p.endAddr
  | .other => false

/-- The pseudo memory holds the octets of the store, each at its address. -/
def Psmem.Holds (p : Psmem) (s : ByteMem) : Prop :=
  ∀ i < p.size.toNat, p.memory i = s (p.addr.toNat + i)

/-- The data a completion carries: what follows its header, from the byte its low address
    says on. -/
def cplPayload (q : Completion) : List Byte :=
  q.frame.buf.read
    (frameCplHdr q.frame + sizeofTlpCplHdr + (cplLowaddr q.frame.buf (frameCplHdr q.frame) &&& 0x3).toNat)
    (tlpCpldDataLength q.frame.buf (frameCplHdr q.frame)).toNat

/-- Enough rounds for every request. -/
def mrdFuel : Nat := 16

/-- A run of the thread: the pseudo memory in the end, the completions each frame was answered
    with, and whether all handlers returned. -/
structure PsmemRun where
  psmem : Psmem
  answers : List (List Completion)
  returned : Bool

/-- The frames received one after the other. -/
def psmemReceiveAll (c : NettlpConf) : List PsmemFrame → Psmem → PsmemRun
  | [], p => ⟨p, [], true⟩
  | f :: fs, p =>
      let first := nettlpPsmemReceive c p f.b f.eth f.residual mrdFuel
      let rest := psmemReceiveAll c fs first.psmem
      ⟨rest.psmem, first.sent :: rest.answers, first.returned && rest.returned⟩

/-! ## Reads -/

section
variable (c : NettlpConf) (p : Psmem) {b : ByteMem} {mh : Nat} (residual : Nat → ByteMem)
  {addr count : BitVec 64}

/-- What round `k` carries of the requested bytes. -/
theorem cplPayload_round (h : MrdRequest b mh addr count) (hc : 1 ≤ count.toNat) {k : Nat}
    (hk : 256 * k < 4 * mrLengthDw b mh) :
    cplPayload (mrdCompletion c p b mh residual k (MrdState.next^[k] (.start b mh))) =
      (List.range (roundEnd (mrOffset b mh) count.toNat k - roundStart (mrOffset b mh) k)).map
        fun i => p.byteAt (mrAligned b mh +
          BitVec.ofNat 64 (256 * k + roundStart (mrOffset b mh) k + i)) := by
  have state := MrdState.iterate_at b mh k
  have low : _ = roundStart (mrOffset b mh) k := state.offset
  have span := h.length_eq
  rw [spanDw, ← h.offset_eq hc] at span
  have through := mrdThrough_of_le (Nat.le_of_lt hk)
  rw [cplPayload, frameCplHdr_mrdCompletion, tlpCpldDataLength_round c p residual h hc hk,
    cplLowaddr_mrdCompletion, low, sizeofTlpCplHdr, ByteMem.read]
  apply List.map_congr_left
  intro i hi
  rw [List.mem_range, roundEnd] at hi
  rw [Nat.add_assoc, mrdCompletion_data, state.sendLen_eq, if_pos (by omega), state.aligned, through,
    BitVec.add_assoc, ← BitVec.ofNat_add, ← Nat.add_assoc]

/-- The completions of an answered request carry the requested bytes. -/
theorem flatMap_cplPayload (h : MrdRequest b mh addr count) (hc : 1 ≤ count.toNat) :
    (DoWhile.rounds (mrdCompletion c p b mh residual) MrdState.next
        ((4 * mrLengthDw b mh - 1) / 256 + 1) 0 (.start b mh)).flatMap cplPayload =
      p.bytesAt addr count := by
  have span := h.length_eq
  have offset := h.offset_eq hc
  have offset_lt := mrOffset_lt b mh
  have start : mrAligned b mh + BitVec.ofNat 64 (mrOffset b mh) = addr := by
    apply BitVec.eq_of_toNat_eq
    have sum := toNat_mrAligned b mh
    rw [h.addr_eq hc] at sum
    have top := addr.isLt
    rw [BitVec.toNat_add, BitVec.toNat_ofNat]
    omega
  rw [spanDw, ← offset] at span
  have whole : min (256 * ((4 * mrLengthDw b mh - 1) / 256 + 1)) (mrOffset b mh + count.toNat) -
      mrOffset b mh = count.toNat := by omega
  have tiles := flatMap_rounds (fun t => p.byteAt (mrAligned b mh + BitVec.ofNat 64 t)) hc offset_lt
    ((4 * mrLengthDw b mh - 1) / 256 + 1) (by omega)
  rw [whole] at tiles
  have bytes : p.bytesAt addr count = (List.range count.toNat).map fun i =>
      p.byteAt (mrAligned b mh + BitVec.ofNat 64 (mrOffset b mh + i)) := by
    rw [Psmem.bytesAt]
    apply List.map_congr_left
    intro i _
    rw [BitVec.ofNat_add, ← BitVec.add_assoc, start]
  rw [bytes, ← tiles, DoWhile.rounds, List.flatMap_map]
  apply List.flatMap_congr
  intro k hk
  rw [List.mem_range] at hk
  rw [Nat.zero_add, cplPayload_round c p residual h hc (by omega)]

end

/-- The bytes of the region are those of the store. -/
theorem Psmem.Holds.byteAt {p : Psmem} {s : ByteMem} (holds : p.Holds s) {a : BitVec 64}
    (start : p.addr.toNat ≤ a.toNat) (stop : a.toNat < p.endAddr) : p.byteAt a = s a.toNat := by
  have offset : (a - p.addr).toNat = a.toNat - p.addr.toNat := BitVec.toNat_sub_of_le start
  have ends : p.endAddr = p.addr.toNat + p.size.toNat := rfl
  rw [Psmem.byteAt, offset, holds _ (by omega), Nat.add_sub_cancel' start]

/-- Bytes that lie in the region are read from the store. -/
theorem Psmem.Holds.bytesAt {p : Psmem} {s : ByteMem} (holds : p.Holds s) {addr count : BitVec 64}
    (start : p.addr.toNat ≤ addr.toNat) (stop : addr.toNat + count.toNat ≤ p.endAddr)
    (top : addr.toNat + count.toNat < 2 ^ 64) : p.bytesAt addr count = s.read addr.toNat count.toNat := by
  rw [Psmem.bytesAt, ByteMem.read]
  apply List.map_congr_left
  intro k hk
  rw [List.mem_range] at hk
  have place : (addr + BitVec.ofNat 64 k).toNat = addr.toNat + k := by
    rw [BitVec.toNat_add, BitVec.toNat_ofNat]
    omega
  rw [holds.byteAt (by omega) (by omega), place]

/-! ## One frame -/

section
variable {p : Psmem} {f : PsmemFrame} {addr count : BitVec 64}

theorem mrdOutOfRange_of_request (top : p.endAddr < 2 ^ 64)
    (request : MrdRequest f.b f.tlp addr count) (pos : 1 ≤ count.toNat)
    (inSpace : addr.toNat + 4 * spanDw addr count < 2 ^ 64) :
    mrdOutOfRange p f.b f.tlp = !p.accepts (.read addr.toNat count.toNat) := by
  have range := mrdOutOfRange_eq_false_iff p f.b f.tlp
  rw [request.addr_eq pos, request.length_eq, Nat.mod_eq_of_lt inSpace, Nat.mod_eq_of_lt top] at range
  rw [spanDw] at range
  rw [Psmem.accepts]
  cases out : mrdOutOfRange p f.b f.tlp with
  | false =>
      obtain ⟨start, stop⟩ := range.mp out
      rw [decide_eq_true ⟨start, stop⟩]
      rfl
  | true =>
      rw [decide_eq_false fun inside => Bool.noConfusion (out.symm.trans (range.mpr inside))]
      rfl

theorem psmemOutOfRange_of_request (top : p.endAddr < 2 ^ 64)
    (inSpace : addr.toNat + count.toNat < 2 ^ 64) {bytes : List Byte}
    (length : bytes.length = count.toNat) :
    psmemOutOfRange p addr count = !p.accepts (.write addr.toNat bytes) := by
  have range := psmemOutOfRange_eq_false_iff p addr count
  rw [Nat.mod_eq_of_lt inSpace, Nat.mod_eq_of_lt top] at range
  rw [Psmem.accepts, length]
  cases out : psmemOutOfRange p addr count with
  | false =>
      rw [decide_eq_true (range.mp out)]
      rfl
  | true =>
      rw [decide_eq_false fun inside => Bool.noConfusion (out.symm.trans (range.mpr inside))]
      rfl

/-- Where the bytes of a write are in its frame. -/
theorem tlpMwrData_of_request (request : MrdRequest f.b f.tlp addr count) (pos : 1 ≤ count.toNat) :
    tlpMwrData f.b f.tlp = mwrDataArea f.b f.tlp + addr.toNat % 4 := by
  rw [tlpMwrData_eq, request.fstdw, fstdwSkip_fstdwOf pos]

variable (c : NettlpConf) {s : ByteMem}

theorem read_step (top : p.endAddr < 2 ^ 64) (holds : p.Holds s)
    (request : MrdRequest f.b f.tlp addr count) (pos : 1 ≤ count.toNat)
    (inSpace : addr.toNat + 4 * spanDw addr count < 2 ^ 64) :
    (nettlpPsmemMrd c p f.b f.tlp f.residual mrdFuel).2 = true ∧
      (nettlpPsmemMrd c p f.b f.tlp f.residual mrdFuel).1.flatMap cplPayload =
        (ByteStore.step p.accepts (.read addr.toNat count.toNat) s).1 := by
  have range := mrdOutOfRange_of_request top request pos inSpace
  rw [ByteStore.step]
  cases accepted : p.accepts (.read addr.toNat count.toNat) with
  | false =>
      rw [accepted] at range
      rw [nettlpPsmemMrd_of_rejected c f.residual _ range]
      exact ⟨rfl, rfl⟩
  | true =>
      rw [accepted] at range
      have short := mrLengthDw_lt f.b f.tlp
      rw [nettlpPsmemMrd_of_request c p f.residual request pos range,
        if_pos (show (4 * mrLengthDw f.b f.tlp - 1) / 256 < mrdFuel by rw [mrdFuel]; omega),
        flatMap_cplPayload c p f.residual request pos]
      obtain ⟨start, stop⟩ := of_decide_eq_true accepted
      rw [spanDw] at inSpace
      exact ⟨rfl, holds.bytesAt start (by omega) (by omega)⟩

theorem write_step (top : p.endAddr < 2 ^ 64) (holds : p.Holds s)
    (request : MrdRequest f.b f.tlp addr count) (pos : 1 ≤ count.toNat)
    (inSpace : addr.toNat + 4 * spanDw addr count < 2 ^ 64) :
    (psmemAfterMwr p f.b f.tlp).Holds (ByteStore.step p.accepts (.write addr.toNat
      (f.b.read (mwrDataArea f.b f.tlp + addr.toNat % 4) count.toNat)) s).2 := by
  have small : addr.toNat + count.toNat < 2 ^ 64 := by
    rw [spanDw] at inSpace
    omega
  have payload : (f.b.read (mwrDataArea f.b f.tlp + addr.toNat % 4) count.toNat).length =
      count.toNat := length_read _ _ _
  generalize hbytes : f.b.read (mwrDataArea f.b f.tlp + addr.toNat % 4) count.toNat = bytes at *
  have range := psmemOutOfRange_of_request (p := p) top small payload
  have address := request.addr_eq pos
  have length := request.dataLength_eq pos
  have word : BitVec.ofInt 64 (tlpMrDataLength f.b f.tlp) = count := by
    rw [length, BitVec.ofInt_natCast, BitVec.ofNat_toNat, BitVec.setWidth_eq]
  intro i hi
  rw [psmemAfterMwr_size] at hi
  rw [ByteStore.step, psmemAfterMwr_addr]
  cases accepted : p.accepts (.write addr.toNat bytes) with
  | false =>
      rw [accepted] at range
      have rejected : psmemOutOfRange p (tlpMrAddr f.b f.tlp)
          (BitVec.ofInt 64 (tlpMrDataLength f.b f.tlp)) = true := by
        rw [address, word]
        exact range
      have kept := psmemAfterMwr_of_outOfRange rejected p.memory
      change psmemAfterMwr p f.b f.tlp = p at kept
      rw [kept]
      exact holds i hi
  | true =>
      rw [accepted] at range
      obtain ⟨start, stop⟩ := of_decide_eq_true accepted
      rw [payload] at stop
      have inRange : MwrInRange p f.b f.tlp := by
        constructor <;> rw [address] <;> omega
      have stored := psmemAfterMwr_memory inRange (by omega) (by rw [address, word]; exact range)
        p.memory hi
      change (psmemAfterMwr p f.b f.tlp).memory i = _ at stored
      rw [stored, address, length, tlpMwrData_of_request request pos]
      change _ = s.write addr.toNat bytes (p.addr.toNat + i)
      by_cases inside : addr.toNat ≤ p.addr.toNat + i ∧
          p.addr.toNat + i < addr.toNat + count.toNat
      · obtain ⟨k, place⟩ := Nat.exists_eq_add_of_le inside.1
        have bound : k < bytes.length := by omega
        rw [if_pos (by omega), place, write_at s addr.toNat bytes bound]
        subst hbytes
        rw [getElem_read, Nat.add_sub_cancel_left]
      · rw [if_neg (by omega), write_of_outside s addr.toNat bytes (by omega)]
        exact holds i hi

/-- One frame does to the pseudo memory what its request does to the store, and is answered
    with the bytes the store is. -/
theorem PsmemFrame.Carries.step {r : StoreRequest} (carried : f.Carries r) (top : p.endAddr < 2 ^ 64)
    (holds : p.Holds s) :
    (nettlpPsmemReceive c p f.b f.eth f.residual mrdFuel).returned = true ∧
      (nettlpPsmemReceive c p f.b f.eth f.residual mrdFuel).sent.flatMap cplPayload =
        (ByteStore.step p.accepts r s).1 ∧
      (nettlpPsmemReceive c p f.b f.eth f.residual mrdFuel).psmem.Holds
        (ByteStore.step p.accepts r s).2 := by
  cases carried with
  | read isMrd request pos inSpace =>
      rw [nettlpPsmemReceive_of_mrd c p f.residual mrdFuel isMrd]
      obtain ⟨returned, sent⟩ := read_step c top holds request pos inSpace
      refine ⟨returned, sent, ?_⟩
      rw [ByteStore.step]
      split <;> exact holds
  | write isMwr request pos inSpace =>
      rw [nettlpPsmemReceive_of_mwr c p f.residual mrdFuel isMwr]
      refine ⟨rfl, ?_, write_step top holds request pos inSpace⟩
      rw [ByteStore.step]
      split <;> rfl
  | other notMrd notMwr =>
      rw [nettlpPsmemReceive_of_neither c p f.residual mrdFuel notMrd notMwr]
      exact ⟨rfl, rfl, holds⟩

end

/-! ## Runs -/

theorem SameRegion.accepts_eq {p p' : Psmem} (h : SameRegion p p') : p'.accepts = p.accepts := by
  obtain ⟨memory, addr, size⟩ := p
  obtain ⟨memory', addr', size'⟩ := p'
  obtain ⟨sameAddr, sameSize⟩ := h
  subst sameAddr sameSize
  rfl

/-- The memory stays where it is. -/
theorem psmemReceiveAll_region (c : NettlpConf) (fs : List PsmemFrame) (p : Psmem) :
    SameRegion p (psmemReceiveAll c fs p).psmem := by
  induction fs generalizing p with
  | nil => exact ⟨rfl, rfl⟩
  | cons f fs ih =>
      have first := nettlpPsmemReceive_region c p f.b f.eth f.residual mrdFuel
      have rest := ih (nettlpPsmemReceive c p f.b f.eth f.residual mrdFuel).psmem
      exact ⟨rest.1.trans first.1, rest.2.trans first.2⟩

/-- Over a run of frames the pseudo memory behaves as a byte store: every handler returns, each
    frame is answered with the bytes its request is answered with by the store, and the
    memory holds what the store does. -/
theorem psmemReceiveAll_refines (c : NettlpConf) {p : Psmem} (top : p.endAddr < 2 ^ 64)
    {fs : List PsmemFrame} {rs : List StoreRequest} (carried : List.Forall₂ PsmemFrame.Carries fs rs)
    {s : ByteMem} (holds : p.Holds s) :
    (psmemReceiveAll c fs p).returned = true ∧
      (psmemReceiveAll c fs p).answers.map (List.flatMap cplPayload) =
        (ByteStore.run p.accepts rs s).1 ∧
      (psmemReceiveAll c fs p).psmem.Holds (ByteStore.run p.accepts rs s).2 := by
  induction carried generalizing p s with
  | nil => exact ⟨rfl, rfl, holds⟩
  | @cons f r fs rs first rest ih =>
      obtain ⟨returned, sent, after⟩ := first.step c top holds
      have region := nettlpPsmemReceive_region c p f.b f.eth f.residual mrdFuel
      rw [psmemReceiveAll, ByteStore.run]
      generalize nettlpPsmemReceive c p f.b f.eth f.residual mrdFuel = out at *
      have ends : out.psmem.endAddr = p.endAddr := by
        rw [Psmem.endAddr, Psmem.endAddr, region.1, region.2]
      obtain ⟨restReturned, restSent, restAfter⟩ := ih (by omega) after
      rw [region.accepts_eq] at restSent restAfter
      refine ⟨?_, ?_, restAfter⟩
      · change (out.returned && _) = true
        rw [returned, restReturned]
        rfl
      · rw [List.map_cons, sent, restSent]

end Sdplane
