import Sdplane.Misc.Mailbox
import Sdplane.Rib.PortDesc
import Sdplane.Rib.QueueConfig

/-!
# The commands and the RIB manager's ring

`set thread`, `update port status` and `update port link-status` (`queue_config.c:50-183`) send
their messages through `msg_queue_rib`, and the RIB manager takes one at a time out of it
(`rib_manager.c:529-583`), in any interleaving. The manager has created the ring, and `malloc`
gives every message. A message that finds the ring full is lost: what `rte_ring_enqueue` answers
is not looked at.
-/

namespace Sdplane

/-- The commands that send the RIB manager a message without looking at the published rib. -/
inductive RibCommand where
  | setThread (c : SetThread)
  | updatePortStatus
  | updatePortLinkStatus

/-- `thread_qconf`, the ring, and the published rib. A queue change takes a copy of the table
    along. -/
def ribMailbox (d : Dpdk) : Mailbox ThreadQconf RibCommand RibMsg (Option Rib) where
  command
    | .setThread c, t => setThreadLcorePortQueue t c
    | .updatePortStatus, t => t
    | .updatePortLinkStatus, t => t
  message
    | .setThread _, t => some (.qconf t)
    | .updatePortStatus, _ => some .portStatus
    | .updatePortLinkStatus, _ => some .ethLink
  process _ msg r := ribAfter d msg r
  capacity := msgQueueCapacity

/-- Before the first command. -/
def ribQueueStart : MailState ThreadQconf RibMsg (Option Rib) := ⟨fun _ => [], .empty, none⟩

/-- The arguments of a `set thread` command are in range. -/
def RibCommand.Valid (d : Dpdk) : RibCommand → Prop
  | .setThread c => SetThreadValid d c
  | _ => True

section
variable {d : Dpdk}

/-- Commands whose messages are processed at once. -/
theorem qconfRun_direct {ks : List RibCommand} (valid : ∀ k ∈ ks, k.Valid d) {t : ThreadQconf}
    {r : Option Rib} (run : QconfRun d t r) :
    QconfRun d (ks.foldl (ribMailbox d).direct (t, r)).1
      (ks.foldl (ribMailbox d).direct (t, r)).2 := by
  induction ks generalizing t r with
  | nil => exact run
  | cons k ks ih =>
      have rest : ∀ k ∈ ks, k.Valid d := fun k mem => valid k (List.mem_cons_of_mem _ mem)
      refine ih rest ?_
      cases k with
      | setThread c => exact run.setThread c (valid _ List.mem_cons_self)
      | updatePortStatus => exact run.message .portStatus rfl
      | updatePortLinkStatus => exact run.message .ethLink rfl

end

/-- In every interleaving of the commands with the RIB manager, the published rib is what the
    messages that came through the ring made of it, which are messages that were sent, in their
    order. Once the ring is drained, and if it never was full, the table and the rib are those of
    the same commands with each message processed at once; where their arguments are in range,
    those of a run of `QconfRun`. -/
theorem ribQueue_run (d : Dpdk) (acts : List (MailAct RibCommand)) :
    let s := (ribMailbox d).run acts ribQueueStart
    (s.receiver = s.ring.given.foldl (fun r msg => ribAfter d msg r) none ∧
      s.ring.given.Sublist s.ring.offered) ∧
    (s.ring.lost = 0 → s.ring.held = [] →
      (s.sender, s.receiver) =
          (Mailbox.commands acts).foldl (ribMailbox d).direct (fun _ => [], none) ∧
        ((∀ k ∈ Mailbox.commands acts, k.Valid d) → QconfRun d s.sender s.receiver)) := by
  intro s
  have const : ∀ (c c' : ThreadQconf) (m : RibMsg) (r : Option Rib),
      (ribMailbox d).process c m r = (ribMailbox d).process c' m r := fun _ _ _ _ => rfl
  have published := Mailbox.receiver_run const (fun _ => []) (s := ribQueueStart) acts rfl
  refine ⟨⟨published, s.ring.given_sublist⟩, fun kept drained => ?_⟩
  have calm := Mailbox.calmRun_of_const const acts ribQueueStart
  have same := Mailbox.flushed_run acts calm kept
  have flushed : (ribMailbox d).flushed s = s.receiver := by
    rw [Mailbox.flushed, drained]
    rfl
  change (s.sender, (ribMailbox d).flushed s) = _ at same
  rw [flushed] at same
  refine ⟨same, fun valid => ?_⟩
  have run := qconfRun_direct valid QconfRun.init
  have table := congrArg Prod.fst same
  have rib := congrArg Prod.snd same
  dsimp only at table rib
  rw [table, rib]
  exact run

/-- A second queue for another lcore. -/
def secondCommand : SetThread := ⟨2, 0, 1⟩

/-- Both commands are typed before the RIB manager takes the first message. -/
def secondFirst : List (MailAct RibCommand) :=
  [.command (.setThread firstCommand), .command (.setThread secondCommand), .receive, .receive]

theorem ribQueue_run_second :
    let s := (ribMailbox onePort).run secondFirst ribQueueStart
    s.sender = setThreadLcorePortQueue firstTable secondCommand ∧
      s.receiver = ribAfter onePort (.qconf (setThreadLcorePortQueue firstTable secondCommand))
        firstRib ∧
      QconfRun onePort s.sender s.receiver := by
  intro s
  have valid : ∀ k ∈ Mailbox.commands secondFirst, k.Valid onePort := by
    intro k mem
    rcases List.mem_pair.mp mem with rfl | rfl
    · exact firstCommand_valid
    · exact ⟨by decide, by decide⟩
  exact ⟨rfl, rfl, ((ribQueue_run onePort secondFirst).2 rfl rfl).2 valid⟩

end Sdplane
