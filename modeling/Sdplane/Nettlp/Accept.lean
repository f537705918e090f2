import Sdplane.Nettlp.MrdRange
import Sdplane.Nettlp.Receive

/-!
# Which frames are acted on

The comparisons of `nettlp_psmem_receive` (`nettlp.c:642-680`). The one of the ether type and the
one of the protocol return; those of the two destination addresses only log, and the length of
the IPv4 header is not looked at.
-/

namespace Sdplane

open ByteMem

/-- The frame goes to the two local addresses, with an IPv4 header of 20 bytes. -/
structure RxToUs (c : NettlpConf) (b : ByteMem) (eth : Nat) : Prop where
  ether : b.read eth 6 = c.localEther.toList
  ihl : b (eth + sizeofEtherHdr) &&& 0x0F = 5
  addr : b.load32 (eth + sizeofEtherHdr + 16) = c.localAddr

/-- The frame has the protocols and the addresses of a NetTLP frame to this side. -/
structure RxAddressed (c : NettlpConf) (b : ByteMem) (eth : Nat) : Prop extends RxToUs c b eth where
  type : ntohs (b.load16 (eth + 12)) = 0x0800
  proto : b (eth + sizeofEtherHdr + 9) = 17

/-- A byte of the pseudo memory is another one than before. -/
def Psmem.Changed (p p' : Psmem) : Prop := ∃ i < p.size.toNat, p'.memory i ≠ p.memory i

/-- Receiving the frame changes the pseudo memory or emits a completion. -/
def RxEffect (c : NettlpConf) (p : Psmem) (b : ByteMem) (eth : Nat) (residual : Nat → ByteMem) :
    Prop :=
  ∃ fuel, p.Changed (nettlpPsmemReceive c p b eth residual fuel).psmem ∨
    (nettlpPsmemReceive c p b eth residual fuel).sent ≠ []

/-- Only a frame to this side has an effect, and every other frame leaves the memory and sends
    nothing. -/
structure RxGuarded (c : NettlpConf) (p : Psmem) (b : ByteMem) (eth : Nat)
    (residual : Nat → ByteMem) : Prop where
  effect : RxEffect c p b eth residual → RxAddressed c b eth
  other : ¬ RxAddressed c b eth → ∀ fuel,
    ¬ p.Changed (nettlpPsmemReceive c p b eth residual fuel).psmem ∧
      (nettlpPsmemReceive c p b eth residual fuel).sent = []

/-- The memory write passes the range test and carries a byte that the memory does not have. -/
def MwrChanges (p : Psmem) (b : ByteMem) (mh : Nat) : Prop :=
  ∃ copy, nettlpPsmemMwr p b mh = some copy ∧
    ∃ k < copy.n.toNat, copy.offset k < p.size.toNat ∧
      b (copy.src + k) ≠ p.memory (copy.offset k)

/-- The frame is a memory read that the range test lets through, or a memory write that changes
    something. -/
def RxActs (p : Psmem) (b : ByteMem) (eth : Nat) : Prop :=
  RxAnswers p b eth ∨ rxIsMwr b eth = true ∧ MwrChanges p b (eth + rxTlpOffset)

section
variable (c : NettlpConf) (p : Psmem) {b : ByteMem} {eth : Nat} (residual : Nat → ByteMem)

theorem Psmem.not_changed : ¬ p.Changed p := fun ⟨_, _, other⟩ => other rfl

theorem Psmem.changed_psmemAfterMwr {mh : Nat} :
    p.Changed (psmemAfterMwr p b mh) ↔ MwrChanges p b mh := by
  rw [psmemAfterMwr, MwrChanges]
  cases copied : nettlpPsmemMwr p b mh with
  | none =>
      refine iff_of_false p.not_changed ?_
      rintro ⟨copy, none, -⟩
      cases none
  | some copy =>
      simp only [Option.some.injEq, exists_eq_left']
      have size := p.size.isLt
      constructor
      · rintro ⟨i, hi, other⟩
        by_contra same
        push Not at same
        refine other ?_
        by_cases touched : ∃ k < copy.n.toNat, copy.offset k = i
        · obtain ⟨k, hk, rfl⟩ := touched
          exact (copy.run_offset b p.memory hk).trans (same k hk hi)
        · push Not at touched
          exact copy.run_of_not_offset b p.memory (by omega) touched
      · rintro ⟨k, hk, inside, other⟩
        refine ⟨copy.offset k, inside, ?_⟩
        rw [← copy.run_offset b p.memory hk] at other
        exact other

/-- What has an effect goes by the ether type and the protocol. -/
theorem RxActs.isUdp (acts : RxActs p b eth) : rxIsUdp b eth = true := by
  rcases acts with ⟨read, -⟩ | ⟨write, -⟩
  · exact (Bool.and_eq_true_iff.mp read).1
  · exact (Bool.and_eq_true_iff.mp write).1

theorem rxEffect_iff : RxEffect c p b eth residual ↔ RxActs p b eth := by
  cases read : rxIsMrd b eth with
  | true =>
      have sent (fuel : Nat) := nettlpPsmemReceive_of_mrd c p residual fuel read
      have other : rxIsMwr b eth = true → False := by
        intro write
        have none := not_tlpIsMwr_of_mrd (Bool.and_eq_true_iff.mp read).2
        rw [(Bool.and_eq_true_iff.mp write).2] at none
        cases none
      have answers := mrdAnswers_iff c p b (eth + rxTlpOffset) residual
      constructor
      · rintro ⟨fuel, changed | emitted⟩
        · rw [sent] at changed
          exact absurd changed p.not_changed
        · rw [sent] at emitted
          exact .inl ⟨read, answers.mp ⟨fuel, emitted⟩⟩
      · rintro (⟨-, accepted⟩ | ⟨write, -⟩)
        · obtain ⟨fuel, emitted⟩ := answers.mpr accepted
          exact ⟨fuel, .inr (by rw [sent]; exact emitted)⟩
        · exact (other write).elim
  | false =>
      have no_read : ¬ RxAnswers p b eth := fun both => by
        rw [both.1] at read
        cases read
      cases write : rxIsMwr b eth with
      | true =>
          have sent (fuel : Nat) := nettlpPsmemReceive_of_mwr c p residual fuel write
          constructor
          · rintro ⟨fuel, changed | emitted⟩
            · rw [sent, p.changed_psmemAfterMwr] at changed
              exact .inr ⟨write, changed⟩
            · rw [sent] at emitted
              exact absurd rfl emitted
          · rintro (answers | ⟨-, changes⟩)
            · exact absurd answers no_read
            · exact ⟨0, .inl (by rw [sent, p.changed_psmemAfterMwr]; exact changes)⟩
      | false =>
          have sent (fuel : Nat) := nettlpPsmemReceive_of_neither c p residual fuel read write
          constructor
          · rintro ⟨fuel, changed | emitted⟩
            · rw [sent] at changed
              exact absurd changed p.not_changed
            · rw [sent] at emitted
              exact absurd rfl emitted
          · rintro (answers | ⟨mwr, -⟩)
            · exact absurd answers no_read
            · rw [mwr] at write
              cases write

/-- The frame is guarded against exactly if it is not acted on, or goes to the local addresses
    with a header of 20 bytes: the ether type and the protocol guard, the others do not. -/
theorem rxGuarded_iff : RxGuarded c p b eth residual ↔ ¬ RxActs p b eth ∨ RxToUs c b eth := by
  have effect : RxEffect c p b eth residual ↔ RxActs p b eth := rxEffect_iff c p residual
  constructor
  · intro guarded
    by_cases acts : RxActs p b eth
    · exact .inr (guarded.effect (effect.mpr acts)).toRxToUs
    · exact .inl acts
  · intro either
    have addressed : RxActs p b eth → RxAddressed c b eth := by
      intro acts
      obtain ⟨type, proto⟩ : ntohs (b.load16 (eth + 12)) = 0x0800 ∧ b (eth + 23) = 17 := by
        simpa [rxIsUdp] using acts.isUdp
      exact ⟨either.resolve_left (not_not.mpr acts), type, proto⟩
    refine ⟨fun acted => addressed (effect.mp acted), ?_⟩
    intro elsewhere fuel
    have none : ¬ RxEffect c p b eth residual := fun acted => elsewhere (addressed (effect.mp acted))
    refine ⟨fun changed => none ⟨fuel, .inl changed⟩, ?_⟩
    by_contra emitted
    exact none ⟨fuel, .inr emitted⟩

end

/-- A write of 1, 2, 3, 4 to 0x1000, in a frame to another Ethernet address than the initial one. -/
def rxElsewhere : ByteMem := ByteMem.ofList <|
  [2, 0, 0, 0, 0, 1] ++ List.replicate 6 0 ++ [0x08, 0x00] ++
  [0x45, 0, 0, 44, 0, 0, 0, 0, 64, 17, 0, 0] ++ List.replicate 8 0 ++
  List.replicate 8 0 ++ List.replicate 6 0 ++
  [0x40, 0, 0, 1, 0, 0, 0, 0x0F, 0x00, 0x00, 0x10, 0x00, 1, 2, 3, 4]

theorem rxGuarded_not :
    ¬ ∀ (c : NettlpConf) (p : Psmem) (b : ByteMem) (eth : Nat) (residual : Nat → ByteMem),
      RxGuarded c p b eth residual := by
  intro all
  have guarded := all .initial ⟨0x1000, 0x2000, fun _ => 0⟩ rxElsewhere 0 fun _ _ => 0
  have ether := (guarded.effect ⟨0, .inl ⟨0, by decide, by decide +kernel⟩⟩).ether
  revert ether
  decide

end Sdplane
