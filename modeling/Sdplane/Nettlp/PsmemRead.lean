import Sdplane.Misc.DoWhile
import Sdplane.Nettlp.Frame
import Sdplane.Nettlp.Psmem

/-!
# Memory reads of the pseudo memory

`nettlp_psmem_mrd` (`nettlp.c:531-598`) answers a memory read with completions of at most
256 bytes. The model runs its `do ... while` loop with a bound on the number of rounds;
`MrdState.iterate` is the state before each round in closed form.
-/

namespace Sdplane

open ByteMem

/-- `MAXPAYLOADSIZE`. -/
def maxPayloadSize : Nat := 256

/-- The locals of the loop. `len` starts as four times the length field and each round
    takes off at most what is left. -/
structure MrdState where
  len : Nat
  dataLen : Int
  addr : BitVec 64

/-- The locals before the loop. -/
def MrdState.start (b : ByteMem) (mh : Nat) : MrdState where
  len := (tlpLength (hdrFalen b mh)).toNat <<< 2
  dataLen := tlpMrDataLength b mh
  addr := tlpMrAddr b mh

/-- `send_len` of a round. -/
def MrdState.sendLen (s : MrdState) : Nat :=
  if s.len < maxPayloadSize then s.len else maxPayloadSize

/-- The updates at the end of a round. -/
def MrdState.next (s : MrdState) : MrdState where
  len := s.len - s.sendLen
  dataLen := s.dataLen - (s.sendLen - (s.addr &&& 0x3#64).toNat)
  addr := ((s.addr >>> 2) <<< 2) + BitVec.ofNat 64 s.sendLen

/-- The loop condition. -/
def MrdState.again (s : MrdState) : Bool := 0 < s.dataLen

/-- The stores to the NetTLP header at `nh` and the completion header behind it; `b` is
    the received frame and `mh` its request header. -/
def putCplHdr (c : NettlpConf) (b : ByteMem) (mh : Nat) (s : MrdState) (nh : Nat)
    (d : ByteMem) : ByteMem :=
  let ch := nh + sizeofNettlpHdr
  let d := d.write nh (List.replicate sizeofNettlpHdr 0)
  let d := d.write ch (List.replicate sizeofTlpCplHdr 0)
  -- the 12 bytes copied take in the first four of the address
  let d := d.write ch (b.read mh sizeofTlpCplHdr)
  let d := d.store8 ch (tlpSetFmt (hdrFmtType d ch) tlpFmt3dw tlpFmtWData)
  let d := d.store8 ch (tlpSetType (hdrFmtType d ch) tlpTypeCpl)
  let d := d.store16 (ch + 2) (tlpSetLength (hdrFalen d ch) (BitVec.ofNat 16 (s.sendLen >>> 2)))
  let d := d.store16 (ch + 6) (tlpSetCplStatus (cplStcnt d ch) tlpCplStatusSc)
  let d := d.store16 (ch + 6) (tlpSetCplBcnt (cplStcnt d ch) (BitVec.ofInt 16 s.dataLen))
  let d := d.store16 (ch + 4) (htons c.requester)
  let d := d.store16 (ch + 8) (mrRequester b mh)
  let d := d.store8 (ch + 10) (mrTag b mh)
  d.store8 (ch + 11) ((s.addr &&& 0x7F#64).setWidth 8)

/-- `from - psmem_memory`. -/
def MrdState.source (p : Psmem) (s : MrdState) : BitVec 64 := ((s.addr >>> 2) <<< 2) - p.addr

/-- The bytes a round copies out of the pseudo memory. -/
def mrdBytes (p : Psmem) (s : MrdState) : List Byte :=
  (List.range s.sendLen).map fun k => p.memory (s.source p + BitVec.ofNat 64 k).toNat

/-- The completion of a round before `nettlp_udp_send`, in an mbuf that held `residual`. -/
def mrdTlp (c : NettlpConf) (p : Psmem) (b : ByteMem) (mh : Nat) (residual : ByteMem)
    (s : MrdState) : Mbuf :=
  let m := rtePktmbufAlloc l2fwdPktmbufPool residual
  let m := rtePktmbufAppend m sizeofNettlpHdr
  let m := rtePktmbufAppend m sizeofTlpCplHdr
  let nh := rtePktmbufMtod m
  let ch := nh + sizeofNettlpHdr
  let m := m.modify (putCplHdr c b mh s nh)
  let m := rtePktmbufAppend m s.sendLen
  m.modify (·.write (ch + sizeofTlpCplHdr) (mrdBytes p s))

/-- One round: the frame that goes out, and the offset and number of the bytes the round
    read from the pseudo memory. -/
structure Completion where
  frame : Mbuf
  source : BitVec 64
  sendLen : Nat

/-- The body of the loop; the `i`-th mbuf allocated held `residual i`. -/
def mrdCompletion (c : NettlpConf) (p : Psmem) (b : ByteMem) (mh : Nat)
    (residual : Nat → ByteMem) (i : Nat) (s : MrdState) : Completion where
  frame := nettlpUdpSend c (mrdTlp c p b mh (residual i) s)
  source := s.source p
  sendLen := s.sendLen

/-- The range test of `nettlp_psmem_mrd`, on the whole of the double words. -/
def mrdOutOfRange (p : Psmem) (b : ByteMem) (mh : Nat) : Bool :=
  psmemOutOfRange p (tlpMrAddr b mh) (BitVec.ofNat 64 ((tlpLength (hdrFalen b mh)).toNat <<< 2))

/-- `nettlp_psmem_mrd` for at most `fuel` rounds: the completions sent, and whether it
    returned. -/
def nettlpPsmemMrd (c : NettlpConf) (p : Psmem) (b : ByteMem) (mh : Nat)
    (residual : Nat → ByteMem) (fuel : Nat) : List Completion × Bool :=
  if mrdOutOfRange p b mh then ([], true)
  else
    DoWhile.run (mrdCompletion c p b mh residual) MrdState.next MrdState.again fuel 0
      (MrdState.start b mh)

/-- An accepted read runs the loop, a rejected one sends nothing. -/
theorem nettlpPsmemMrd_of_accepted (c : NettlpConf) {p : Psmem} {b : ByteMem} {mh : Nat}
    (residual : Nat → ByteMem) (fuel : Nat) (accepted : mrdOutOfRange p b mh = false) :
    nettlpPsmemMrd c p b mh residual fuel =
      DoWhile.run (mrdCompletion c p b mh residual) MrdState.next MrdState.again fuel 0
        (MrdState.start b mh) := by
  rw [nettlpPsmemMrd, accepted, if_neg Bool.false_ne_true]

theorem nettlpPsmemMrd_of_rejected (c : NettlpConf) {p : Psmem} {b : ByteMem} {mh : Nat}
    (residual : Nat → ByteMem) (fuel : Nat) (rejected : mrdOutOfRange p b mh = true) :
    nettlpPsmemMrd c p b mh residual fuel = ([], true) := by
  rw [nettlpPsmemMrd, if_pos rejected]

/-! ## The loop in closed form -/

/-- The distance of the first byte from its DW. -/
def mrOffset (b : ByteMem) (mh : Nat) : Nat := (tlpMrAddr b mh).toNat % 4

/-- The DW-aligned address of the first byte. -/
def mrAligned (b : ByteMem) (mh : Nat) : BitVec 64 := (tlpMrAddr b mh >>> 2) <<< 2

theorem toNat_mrAligned (b : ByteMem) (mh : Nat) :
    (mrAligned b mh).toNat + mrOffset b mh = (tlpMrAddr b mh).toNat := by
  rw [mrAligned, mrOffset, toNat_shift_align]
  omega

theorem mrAligned_mod (b : ByteMem) (mh : Nat) : (mrAligned b mh).toNat % 4 = 0 := by
  rw [mrAligned, toNat_shift_align]
  omega

theorem mrOffset_lt (b : ByteMem) (mh : Nat) : mrOffset b mh < 4 := Nat.mod_lt _ (by omega)

/-- An aligned address moved by whole double words is aligned. -/
theorem align_add_of_aligned {a : BitVec 64} {n : Nat} (ha : a.toNat % 4 = 0) (hn : n % 4 = 0) :
    (a + BitVec.ofNat 64 n).toNat % 4 = 0 ∧
      ((a + BitVec.ofNat 64 n) >>> 2) <<< 2 = a + BitVec.ofNat 64 n := by
  have low : (a + BitVec.ofNat 64 n).toNat % 4 = 0 := by
    rw [BitVec.toNat_add, BitVec.toNat_ofNat]
    omega
  refine ⟨low, ?_⟩
  apply BitVec.eq_of_toNat_eq
  rw [toNat_shift_align]
  omega

/-- The bytes that are through before the `k`-th round. -/
def mrdThrough (b : ByteMem) (mh k : Nat) : Nat := min (256 * k) (4 * mrLengthDw b mh)

theorem mrdThrough_of_le {b : ByteMem} {mh k : Nat} (h : 256 * k ≤ 4 * mrLengthDw b mh) :
    mrdThrough b mh k = 256 * k := Nat.min_eq_left h

/-- The locals before the `k`-th round, with the parts of the address apart. -/
structure MrdAt (b : ByteMem) (mh k : Nat) (s : MrdState) : Prop where
  len : s.len = 4 * mrLengthDw b mh - 256 * k
  dataLen : s.dataLen = tlpMrDataLength b mh - mrdThrough b mh k +
    if k = 0 then 0 else (mrOffset b mh : Int)
  aligned : (s.addr >>> 2) <<< 2 = mrAligned b mh + BitVec.ofNat 64 (mrdThrough b mh k)
  offset : s.addr.toNat % 4 = if k = 0 then mrOffset b mh else 0

theorem MrdState.start_at (b : ByteMem) (mh : Nat) : MrdAt b mh 0 (.start b mh) where
  len := by simp only [start, mrLengthDw, Nat.shiftLeft_eq]; omega
  dataLen := by simp [start, mrdThrough]
  aligned := by simp [start, mrdThrough, mrAligned]
  offset := by simp [start, mrOffset]

theorem MrdAt.sendLen_eq {b : ByteMem} {mh k : Nat} {s : MrdState} (h : MrdAt b mh k s) :
    s.sendLen = min 256 (4 * mrLengthDw b mh - 256 * k) := by
  rw [MrdState.sendLen, maxPayloadSize, h.len]
  split <;> omega

theorem MrdAt.next_at {b : ByteMem} {mh k : Nat} {s : MrdState} (h : MrdAt b mh k s) :
    MrdAt b mh (k + 1) s.next := by
  have send := h.sendLen_eq
  have through : mrdThrough b mh k + s.sendLen = mrdThrough b mh (k + 1) := by
    rw [send, mrdThrough, mrdThrough]
    omega
  have addr : s.next.addr = mrAligned b mh + BitVec.ofNat 64 (mrdThrough b mh (k + 1)) := by
    rw [MrdState.next, h.aligned, ← through, BitVec.ofNat_add, BitVec.add_assoc]
  have whole : mrdThrough b mh (k + 1) % 4 = 0 := by
    rw [mrdThrough]
    omega
  obtain ⟨low, same⟩ := align_add_of_aligned (mrAligned_mod b mh) whole
  refine ⟨?_, ?_, ?_, ?_⟩
  · change s.len - s.sendLen = _
    rw [send, h.len]
    omega
  · rw [MrdState.next, toNat_and_3, h.offset, h.dataLen, if_neg (Nat.succ_ne_zero k), ← through]
    by_cases first : k = 0
    · simp only [first, if_true]
      omega
    · simp only [first, if_false]
      omega
  · rw [addr, same]
  · rw [addr, low, if_neg (Nat.succ_ne_zero k)]

theorem MrdState.iterate_at (b : ByteMem) (mh k : Nat) :
    MrdAt b mh k (MrdState.next^[k] (.start b mh)) := by
  induction k with
  | zero => exact MrdState.start_at b mh
  | succ k ih =>
      rw [Function.iterate_succ_apply']
      exact ih.next_at

theorem mrdDisabled_le (b : ByteMem) (mh : Nat) :
    fstdwDisabled (mrFstdw b mh) + lstdwDisabled (mrLstdw b mh) ≤ 6 := by
  have hf := fstdwDisabled_le (mrFstdw b mh)
  have hs := lstdwDisabled_le (mrLstdw b mh)
  omega

/-- After round `k` another one follows as long as data is left. -/
theorem MrdState.again_iff (b : ByteMem) (mh k : Nat) :
    MrdState.again (MrdState.next^[k + 1] (.start b mh)) = true ↔
      (mrdThrough b mh (k + 1) : Int) < tlpMrDataLength b mh + mrOffset b mh := by
  have h := (MrdState.iterate_at b mh (k + 1)).dataLen
  rw [if_neg (Nat.succ_ne_zero k)] at h
  rw [MrdState.again, decide_eq_true_iff, h]
  omega

/-! ## Termination -/

/-- `nettlp_psmem_mrd` returns, and by then has sent no more completions than it takes to
    carry the double words of the request. -/
def MrdTerminates (c : NettlpConf) (p : Psmem) (b : ByteMem) (mh : Nat)
    (residual : Nat → ByteMem) : Prop :=
  ∃ fuel, (nettlpPsmemMrd c p b mh residual fuel).2 = true ∧
    (nettlpPsmemMrd c p b mh residual fuel).1.length ≤
      max 1 ((4 * mrLengthDw b mh + 255) / 256)

section
variable (c : NettlpConf) {p : Psmem} {b : ByteMem} {mh : Nat} (residual : Nat → ByteMem)

/-- Where the byte enables take off less than the first byte is away from its DW, the data
    length never gets to zero. -/
theorem mrd_again_of_disabled_lt
    (short : fstdwDisabled (mrFstdw b mh) + lstdwDisabled (mrLstdw b mh) < mrOffset b mh)
    (k : Nat) : MrdState.again (MrdState.next^[k + 1] (.start b mh)) = true := by
  rw [MrdState.again_iff, tlpMrDataLength_eq, mrdThrough]
  omega

theorem nettlpPsmemMrd_never_returns (accepted : mrdOutOfRange p b mh = false)
    (short : fstdwDisabled (mrFstdw b mh) + lstdwDisabled (mrLstdw b mh) < mrOffset b mh)
    (fuel : Nat) : (nettlpPsmemMrd c p b mh residual fuel).2 = false := by
  have more := fun j (_ : j < fuel) => mrd_again_of_disabled_lt short j
  rw [nettlpPsmemMrd_of_accepted c residual fuel accepted, DoWhile.run_of_again _ more]

/-- Otherwise the round that reaches the end of the double words is the last, if none
    before it was. -/
theorem mrd_ends_of_le_disabled
    (covered : mrOffset b mh ≤ fstdwDisabled (mrFstdw b mh) + lstdwDisabled (mrLstdw b mh))
    {k : Nat} (through : 4 * mrLengthDw b mh ≤ 256 * (k + 1)) :
    MrdState.again (MrdState.next^[k + 1] (.start b mh)) = false := by
  rw [Bool.eq_false_iff, Ne, MrdState.again_iff, tlpMrDataLength_eq, mrdThrough]
  omega

/-- How many completions a memory read is answered with, if it is answered with finitely
    many: as many as it takes to get the data length, which grows by the offset of the first
    byte in the first round, to zero. -/
def mrdRounds (b : ByteMem) (mh : Nat) : Nat :=
  max 1 (((tlpMrDataLength b mh + mrOffset b mh).toNat + 255) / 256)

/-- A handler that returned has sent that many completions. -/
theorem nettlpPsmemMrd_length (accepted : mrdOutOfRange p b mh = false) {fuel : Nat}
    (returned : (nettlpPsmemMrd c p b mh residual fuel).2 = true) :
    (nettlpPsmemMrd c p b mh residual fuel).1.length = mrdRounds b mh := by
  rw [nettlpPsmemMrd_of_accepted c residual fuel accepted] at returned ⊢
  rcases DoWhile.run_cases (mrdCompletion c p b mh residual) MrdState.next MrdState.again fuel 0
    (.start b mh) with ⟨-, ran⟩ | ⟨n, -, more, last, ran⟩
  · rw [ran] at returned
    exact Bool.noConfusion returned
  · rw [ran, DoWhile.rounds, List.length_map, List.length_range, mrdRounds]
    have ended : ¬ (mrdThrough b mh (n + 1) : Int) < tlpMrDataLength b mh + mrOffset b mh := by
      rw [← MrdState.again_iff, last]
      exact Bool.false_ne_true
    unfold mrdThrough at ended
    rcases Nat.eq_zero_or_pos n with zero | pos
    · omega
    · have before := (MrdState.again_iff b mh (n - 1)).mp (more (n - 1) (by omega))
      rw [mrdThrough] at before
      omega

/-- Sixteen rounds are enough for every request that is answered with finitely many. -/
theorem nettlpPsmemMrd_returns
    (covered : mrOffset b mh ≤ fstdwDisabled (mrFstdw b mh) + lstdwDisabled (mrLstdw b mh)) :
    (nettlpPsmemMrd c p b mh residual 16).2 = true := by
  have short := mrLengthDw_lt b mh
  have last := mrd_ends_of_le_disabled covered (k := 15) (by omega)
  unfold nettlpPsmemMrd
  split
  · rfl
  · rcases DoWhile.run_cases (mrdCompletion c p b mh residual) MrdState.next MrdState.again 16 0
      (.start b mh) with ⟨more, -⟩ | ⟨n, -, -, -, ran⟩
    · have again := more 15 (by omega)
      rw [last] at again
      exact Bool.noConfusion again
    · rw [ran]

/-- A memory read that passes the range test is answered with finitely many completions,
    and no more than its double words take, exactly when the byte enables take off at
    least the offset of the first byte in its DW. -/
theorem nettlpPsmemMrd_terminates_iff :
    MrdTerminates c p b mh residual ↔
      mrdOutOfRange p b mh = true ∨
      mrOffset b mh ≤ fstdwDisabled (mrFstdw b mh) + lstdwDisabled (mrLstdw b mh) := by
  constructor
  · rintro ⟨fuel, returned, -⟩
    by_contra neither
    obtain ⟨accepted, short⟩ := not_or.mp neither
    have never := nettlpPsmemMrd_never_returns c residual (Bool.eq_false_iff.mpr accepted)
      (not_le.mp short) fuel
    rw [returned] at never
    exact Bool.noConfusion never
  · rintro (rejected | covered)
    · exact ⟨0, by simp [nettlpPsmemMrd, rejected]⟩
    · -- the index of the last round that still has a double word to send
      have through : 4 * mrLengthDw b mh ≤ 256 * ((4 * mrLengthDw b mh - 1) / 256 + 1) := by omega
      have last := mrd_ends_of_le_disabled covered through
      refine ⟨(4 * mrLengthDw b mh - 1) / 256 + 1, ?_⟩
      cases outside : mrdOutOfRange p b mh with
      | true => simp [nettlpPsmemMrd, outside]
      | false =>
          rcases DoWhile.run_cases (mrdCompletion c p b mh residual) MrdState.next
            MrdState.again ((4 * mrLengthDw b mh - 1) / 256 + 1) 0 (.start b mh)
            with ⟨more, -⟩ | ⟨n, bound, -, -, ran⟩
          · have again := more _ (Nat.lt_succ_self _)
            rw [last] at again
            exact Bool.noConfusion again
          · simp only [nettlpPsmemMrd, outside, Bool.false_eq_true, if_false, ran,
              DoWhile.rounds, List.length_map, List.length_range, true_and]
            omega

end

/-- A one-DW read whose address field has a low bit set, all bytes enabled. -/
def mrdUnaligned : ByteMem := ByteMem.ofList [0x00, 0, 0, 1, 0, 0, 0, 0x0F, 0x00, 0x00, 0x10, 0x01]

/-- `mrdUnaligned` passes the test of an 8 KiB memory at 0x1000, and no bound on the rounds
    is enough for it. -/
theorem nettlpPsmemMrd_loops :
    ¬ ∀ (c : NettlpConf) (p : Psmem) (b : ByteMem) (mh : Nat) (residual : Nat → ByteMem),
      MrdTerminates c p b mh residual := by
  intro terminates
  obtain ⟨fuel, returned, -⟩ := terminates .initial ⟨0x1000, 0x2000, fun _ => 0⟩ mrdUnaligned 0
    fun _ _ => 0
  have accepted : mrdOutOfRange ⟨0x1000, 0x2000, fun _ => 0⟩ mrdUnaligned 0 = false := by decide
  have short : fstdwDisabled (mrFstdw mrdUnaligned 0) + lstdwDisabled (mrLstdw mrdUnaligned 0) <
      mrOffset mrdUnaligned 0 := by decide
  have never := nettlpPsmemMrd_never_returns .initial (fun _ _ => 0) accepted short fuel
  rw [returned] at never
  exact Bool.noConfusion never

end Sdplane
