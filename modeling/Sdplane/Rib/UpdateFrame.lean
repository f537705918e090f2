import Sdplane.Rib.NextRib
import Sdplane.Rib.PortDesc

/-!
# What a message changes

The manager copies the published `rib_info`, stores into the copy and publishes that. What the
message does not name is in the next `rib_info` as it was, and what is published is not stored
into any more.
-/

namespace Sdplane

/-! ## What is sent -/

/-- The thread table has no list that is too long. -/
theorem TableReachable.fits {t : ThreadQconf} (reachable : TableReachable t) (d : Dpdk) :
    (RibMsg.qconf t).Fits d := by
  intro i below
  exact reachable.ok.room i (below.trans_le d.lcoreCount_le)

/-- Descriptor numbers are sent for ports there are. -/
theorem descMessages_fits (d d' : Dpdk) (a : DescAdjust) (rib : Option Rib) (c : DescCommand) :
    ∀ msg ∈ descMessages d a rib c, msg.Fits d' := by
  intro msg mem
  obtain ⟨port, present, sent⟩ := List.mem_filterMap.mp mem
  split at sent
  · cases sent
    exact (List.mem_range.mp present).trans_le d.nbPorts_le
  · cases sent

/-! ## What may differ -/

/-- The later of two versions of a `rib_info`, with the fields the message does not name. -/
structure RibMsg.Updates (d : Dpdk) (msg : RibMsg) (o o' : RibInfoObject) : Prop where
  ver : o'.info.ver = o.info.ver + 1
  tapif : o'.tapifSize = o.tapifSize ∧ o'.tapif = o.tapif
  vswitch : o'.vswitchSize = o.vswitchSize ∧ o'.vswitch = o.vswitch
  portSize : msg ≠ .portStatus → o'.info.portSize = o.info.portSize
  lcoreSize : msg ≠ .portStatus → msg.isQconf = false → o'.info.lcoreSize = o.info.lcoreSize
  lcoreQconf : msg.isQconf = false → o'.info.lcoreQconf = o.info.lcoreQconf
  desc : ∀ i, (∀ nbRxd nbTxd, msg ≠ .txrxDesc i nbRxd nbTxd) →
    (o'.info.port i).nbRxd = (o.info.port i).nbRxd ∧ (o'.info.port i).nbTxd = (o.info.port i).nbTxd
  status : ∀ i, (msg = .portStatus → d.nbPorts ≤ i) →
    (o'.info.port i).link = (o.info.port i).link ∧
      (o'.info.port i).devInfo = (o.info.port i).devInfo

/-- One case for each type of message. -/
theorem RibMsg.apply_updates (d : Dpdk) (msg : RibMsg) (o : RibInfoObject) :
    msg.Updates d o (msg.apply d o.next) := by
  cases msg with
  | portStatus =>
      refine ⟨rfl, ⟨rfl, rfl⟩, ⟨rfl, rfl⟩, fun other => absurd rfl other,
        fun other => absurd rfl other, fun _ => rfl, fun i _ => ?_, fun i beyond => ?_⟩
      · change ((updatePortStatus d o.next.info).port i).nbRxd = _ ∧
          ((updatePortStatus d o.next.info).port i).nbTxd = _
        simp only [updatePortStatus]
        split
        · exact ⟨rfl, rfl⟩
        · exact ⟨rfl, rfl⟩
      · have above : ¬ i < d.nbPorts := Nat.not_lt.mpr (beyond rfl)
        change ((updatePortStatus d o.next.info).port i).link = _ ∧
          ((updatePortStatus d o.next.info).port i).devInfo = _
        simp only [updatePortStatus, if_neg above]
        exact ⟨rfl, rfl⟩
  | ethLink =>
      exact ⟨rfl, ⟨rfl, rfl⟩, ⟨rfl, rfl⟩, fun _ => rfl, fun _ _ => rfl, fun _ => rfl,
        fun _ _ => ⟨rfl, rfl⟩, fun _ _ => ⟨rfl, rfl⟩⟩
  | qconf q =>
      exact ⟨rfl, ⟨rfl, rfl⟩, ⟨rfl, rfl⟩, fun _ => rfl,
        fun _ other => absurd other.symm Bool.false_ne_true,
        fun other => absurd other.symm Bool.false_ne_true, fun _ _ => ⟨rfl, rfl⟩,
        fun _ _ => ⟨rfl, rfl⟩⟩
  | qconf2 =>
      exact ⟨rfl, ⟨rfl, rfl⟩, ⟨rfl, rfl⟩, fun _ => rfl,
        fun _ other => absurd other.symm Bool.false_ne_true,
        fun other => absurd other.symm Bool.false_ne_true, fun _ _ => ⟨rfl, rfl⟩,
        fun _ _ => ⟨rfl, rfl⟩⟩
  | txrxDesc portid nbRxd nbTxd =>
      refine ⟨rfl, ⟨rfl, rfl⟩, ⟨rfl, rfl⟩, fun _ => rfl, fun _ _ => rfl, fun _ => rfl,
        fun i other => ?_, fun i _ => ?_⟩
      · have unnamed : i ≠ portid := by
          rintro rfl
          exact other nbRxd nbTxd rfl
        change ((updateTxrxDesc portid nbRxd nbTxd o.next.info).port i).nbRxd = _ ∧
          ((updateTxrxDesc portid nbRxd nbTxd o.next.info).port i).nbTxd = _
        simp only [updateTxrxDesc, if_neg unnamed]
        exact ⟨rfl, rfl⟩
      · change ((updateTxrxDesc portid nbRxd nbTxd o.next.info).port i).link = _ ∧
          ((updateTxrxDesc portid nbRxd nbTxd o.next.info).port i).devInfo = _
        simp only [updateTxrxDesc]
        split
        · exact ⟨rfl, rfl⟩
        · exact ⟨rfl, rfl⟩
  | unknown =>
      exact ⟨rfl, ⟨rfl, rfl⟩, ⟨rfl, rfl⟩, fun _ => rfl, fun _ _ => rfl, fun _ => rfl,
        fun _ _ => ⟨rfl, rfl⟩, fun _ _ => ⟨rfl, rfl⟩⟩

/-- No store into a `rib_info` that was published before; the last event comes first. -/
def Unmodified : List InfoEvent → Prop
  | [] => True
  | .store q :: log => .publish q ∉ log ∧ Unmodified log
  | .publish _ :: log => Unmodified log

namespace RibHeap

/-- The heaps between messages, as long as the allocations succeed. What `rib_check` answers is
    left open; it only reads the `rib_info`. -/
inductive Reachable : RibHeap → Prop where
  | empty : Reachable .empty
  | call {h h' : RibHeap} {check : RibInfo → Option Bool} {c : RibCall} (before : Reachable h)
      (ribOk : c.ribOk = true) (infoOk : c.infoOk = true)
      (run : h.processMessage check c = some h') : Reachable h'

/-- What holds between messages. -/
structure Ok (h : RibHeap) : Prop where
  bounded : h.Bounded
  alive : h.Alive
  whole : h.published.isSome → (h.ribInfo h.published).isSome
  shown : ∀ q, .publish q ∈ h.log → q < h.fresh
  unmodified : Unmodified h.log

section

variable {h h' : RibHeap} {check : RibInfo → Option Bool} {c : RibCall}

theorem empty_ok : empty.Ok where
  bounded := empty_bounded
  alive := fun _ none => by cases none
  whole none := none
  shown _ mem := absurd mem List.not_mem_nil
  unmodified := trivial

/-! ## The log -/

theorem mem_stored {n q : Nat} : .publish q ∈ h.stored n ↔ .publish q ∈ h.log := by
  rw [stored, List.mem_append]
  refine or_iff_right fun store => ?_
  cases List.eq_of_mem_replicate store

/-- The new `rib_info` was not published before. -/
theorem Ok.stored (ok : h.Ok) (n : Nat) : Unmodified (h.stored n) := by
  have unshown : .publish (h.fresh + 1) ∉ h.log := by
    intro shown
    have below := ok.shown _ shown
    omega
  induction n with
  | zero => exact ok.unmodified
  | succ n ih => exact ⟨fun shown => unshown (mem_stored.mp shown), ih⟩

/-! ## A message -/

/-- The new `rib_info` is what is published. -/
theorem Next.read {o : RibInfoObject} {log : List InfoEvent} (next : h.Next o log h') :
    h'.read h'.published = some o := by
  rw [RibHeap.read, next.ribInfo, Option.bind_some, next.infos, if_pos rfl]

theorem Ok.next (ok : h.Ok) {n : Nat} {o : RibInfoObject} (next : h.Next o (h.stored n) h') :
    h'.Ok where
  bounded := by
    have grown := next.fresh
    refine ⟨fun a above => ?_, fun q above => ?_⟩
    · have free : h.ribs a = none := ok.bounded.ribs a (by omega)
      rw [next.ribs, if_neg (by omega), free, ite_self]
    · have free : h.infos q = none := ok.bounded.infos q (by omega)
      rw [next.infos, if_neg (by omega), free, ite_self]
  alive := by
    intro p published
    rw [next.published] at published
    cases published
    refine ⟨some (h.fresh + 1), by rw [next.ribs, if_pos rfl], ?_⟩
    rintro q ⟨⟩
    rw [next.infos, if_pos rfl]
    rfl
  whole _ := by
    rw [next.ribInfo]
    rfl
  shown := by
    intro q mem
    have grown := next.fresh
    rw [next.log] at mem
    rcases List.mem_cons.mp mem with here | before
    · cases here
      omega
    · have below := ok.shown q (mem_stored.mp before)
      omega
  unmodified := by
    rw [next.log]
    exact ok.stored n

theorem Ok.withNew (ok : h.Ok) (o : RibInfoObject) (n : Nat) : (h.withNew o (h.stored n)).Ok where
  bounded := ok.bounded.withNew o _
  alive := ok.alive.withNew ok.bounded o _
  whole some := by
    change ((h.withNew o (h.stored n)).ribInfo h.published).isSome
    rw [ribInfo_published_withNew ok.alive ok.bounded]
    exact ok.whole some
  shown q mem := (ok.shown q (mem_stored.mp mem)).trans_le (Nat.le_add_right _ 2)
  unmodified := ok.stored n

/-- The published `rib_info` is not touched by the return in between. -/
theorem Ok.read_withNew (ok : h.Ok) (o : RibInfoObject) (log : List InfoEvent) :
    (h.withNew o log).read h.published = h.read h.published := by
  rw [RibHeap.read, RibHeap.read, ribInfo_published_withNew ok.alive ok.bounded]
  cases same : h.ribInfo h.published with
  | none => rfl
  | some q =>
      have below := ok.alive.ribInfo_lt ok.bounded same
      exact Function.update_of_ne (by omega) _ _

theorem Ok.processMessage (ok : h.Ok) (ribOk : c.ribOk = true) (infoOk : c.infoOk = true)
    (run : h.processMessage check c = some h') : h'.Ok := by
  obtain ⟨n, ⟨-, next⟩ | ⟨-, -, rfl⟩⟩ := processMessage_cases ok.alive ok.bounded ribOk infoOk run
  · exact ok.next next
  · exact ok.withNew _ n

theorem Reachable.ok (reach : h.Reachable) : h.Ok := by
  induction reach with
  | empty => exact empty_ok
  | call before ribOk infoOk run ih => exact ih.processMessage ribOk infoOk run

/-- What is published has a `rib_info`, which is what the next one is made from. -/
theorem Ok.read_published (ok : h.Ok) {p : Nat} (published : h.published = some p) :
    h.read h.published = some h.base := by
  have whole : (h.ribInfo h.published).isSome := ok.whole (by rw [published]; rfl)
  obtain ⟨q, same⟩ := Option.isSome_iff_exists.mp whole
  have copied := oldInfo_eq ok.alive
  rw [same] at copied
  rw [read, same]
  exact copied

/-- After every message, the published rib is the one before or a new one, whose `rib_info` is
    the next version of the published one and differs from it only in what the message names; the
    one before it stays just if `rib_check` rejects. No `rib_info` is stored into once it was
    published. -/
theorem processMessage_frame (reach : h.Reachable) {p : Nat} (published : h.published = some p)
    (ribOk : c.ribOk = true) (infoOk : c.infoOk = true) (fits : c.msg.Fits c.dpdk)
    (answers : c.msg.isQconf = true → (check (h.built c.dpdk c.msg).info).isSome) :
    ∃ o h', h.read h.published = some o ∧ h.processMessage check c = some h' ∧
      Unmodified h'.log ∧
      if c.msg.isQconf = true ∧ check (h.built c.dpdk c.msg).info = some false then
        h'.published = h.published ∧ h'.read h'.published = some o
      else ∃ o', h'.read h'.published = some o' ∧ c.msg.Updates c.dpdk o o' := by
  have ok := reach.ok
  have before := ok.read_published published
  by_cases rejected : c.msg.isQconf = true ∧ check (h.built c.dpdk c.msg).info = some false
  · obtain ⟨n, run⟩ := processMessage_rejected ok.alive ribOk infoOk fits rejected.1 rejected.2
    refine ⟨h.base, _, before, run, ok.stored n, ?_⟩
    rw [if_pos rejected]
    exact ⟨rfl, (ok.read_withNew _ _).trans before⟩
  · have accepted : c.msg.isQconf = true → check (h.built c.dpdk c.msg).info = some true := by
      intro kind
      obtain ⟨verdict, answer⟩ := Option.isSome_iff_exists.mp (answers kind)
      cases verdict with
      | true => exact answer
      | false => exact absurd ⟨kind, answer⟩ rejected
    obtain ⟨n, h', run, next⟩ := processMessage_next ok.alive ok.bounded ribOk infoOk fits accepted
    refine ⟨h.base, h', before, run, (ok.next next).unmodified, ?_⟩
    rw [if_neg rejected]
    exact ⟨h.built c.dpdk c.msg, next.read, RibMsg.apply_updates _ _ _⟩

/-- The descriptors of a port are set once its state is known. -/
def firstStatus : RibCall := ⟨onePort, .portStatus, true, true, true⟩
def firstDesc : RibCall := ⟨onePort, .txrxDesc 0 512 512, true, true, true⟩

theorem processMessage_frame_firstDesc :
    ∃ h : RibHeap, h.Reachable ∧ ∃ o h', h.read h.published = some o ∧
      h.processMessage (ribCheckAnswer onePort) firstDesc = some h' ∧ Unmodified h'.log ∧
      ∃ o', h'.read h'.published = some o' ∧ firstDesc.msg.Updates onePort o o' := by
  have quiet : firstStatus.msg.isQconf = true →
      ribCheckAnswer onePort (empty.built onePort firstStatus.msg).info = some true :=
    fun queue => absurd queue Bool.false_ne_true
  obtain ⟨n, h, run, next⟩ :=
    processMessage_next empty_ok.alive empty_bounded rfl rfl (by decide) quiet
  have reach : h.Reachable := .call .empty rfl rfl run
  have answers : firstDesc.msg.isQconf = true →
      (ribCheckAnswer onePort (h.built onePort firstDesc.msg).info).isSome :=
    fun queue => absurd queue Bool.false_ne_true
  obtain ⟨o, h', before, done, calm, after⟩ :=
    processMessage_frame reach next.published rfl rfl (by decide) answers
  rw [if_neg (fun both => by cases both.1)] at after
  exact ⟨h, reach, o, h', before, done, calm, after⟩

/-! ## The rib the readers see -/

/-- What the published pointer leads to. -/
def view (h : RibHeap) : Option Rib :=
  h.published.map fun p => ⟨(h.read (some p)).map RibInfoObject.info⟩

theorem built_info (d : Dpdk) (msg : RibMsg) : (h.built d msg).info = ribInfoFor d msg h.view := by
  have copied : h.base.next.info = Sdplane.ribCreate h.view := by
    rw [base, view]
    cases published : h.published with
    | none => rfl
    | some p =>
        cases same : h.read (some p) with
        | none => simp [Sdplane.ribCreate, same, RibInfoObject.next, RibInfoObject.store,
            RibInfoObject.zero, Sdplane.ribInfoCreate]
        | some o => simp [Sdplane.ribCreate, same, RibInfoObject.next, RibInfoObject.store,
            Sdplane.ribInfoCreate]
  cases msg with
  | portStatus => exact congrArg (updatePortStatus d) copied
  | ethLink => exact copied
  | qconf q => exact congrArg (mergeQconf d q) copied
  | qconf2 => exact congrArg (mergeQconf2 d) copied
  | txrxDesc portid nbRxd nbTxd => exact congrArg (updateTxrxDesc portid nbRxd nbTxd) copied
  | unknown => exact copied

theorem Ok.view (ok : h.Ok) : h.view = (h.read h.published).map fun o => ⟨some o.info⟩ := by
  cases published : h.published with
  | none => simp [RibHeap.view, published, RibHeap.read, ribInfo]
  | some p =>
      have before := ok.read_published published
      rw [published] at before
      simp [RibHeap.view, published, before]

/-- On the heap, a message does what `ribAfter` says. -/
theorem processMessage_view (reach : h.Reachable) (ribOk : c.ribOk = true)
    (infoOk : c.infoOk = true) (run : h.processMessage (ribCheckAnswer c.dpdk) c = some h') :
    h'.view = ribAfter c.dpdk c.msg h.view := by
  have ok := reach.ok
  rw [ribAfter_eq, (ok.processMessage ribOk infoOk run).view, ← built_info]
  obtain ⟨n, ⟨accepted, next⟩ | ⟨kind, rejected, rfl⟩⟩ :=
    processMessage_cases ok.alive ok.bounded ribOk infoOk run
  · have unrejected : ¬ (c.msg.isQconf = true ∧
        (ribCheck (h.built c.dpdk c.msg).info).isSome = false) := by
      rintro ⟨kind, refused⟩
      rw [ribCheckAnswer_eq_some (accepted kind)] at refused
      cases refused
    rw [if_neg unrejected, next.read]
    rfl
  · rw [if_pos ⟨kind, ribCheckAnswer_eq_some rejected⟩, ok.view]
    exact congrArg _ (ok.read_withNew _ _)

end

end RibHeap

end Sdplane
