import Sdplane.Rib.Manager

/-!
# Descriptor numbers

The command `set port <port>|all nrxdesc|ntxdesc <n>` (`dpdk_port_cmd.c:661-752`) reads a
snapshot of the RIB, and sends for each port a message with both descriptor numbers: the
one it sets, and the other one as the snapshot has it. The messages wait in the ring of the
RIB manager until it processes them.
-/

namespace Sdplane

open Qsbr

/-- The number a command sets. -/
inductive DescField where
  | rx
  | tx
  deriving DecidableEq

/-- The field the command does not set. -/
def DescField.other : DescField → DescField
  | .rx => .tx
  | .tx => .rx

/-- The default for an unset number. -/
def DescField.default : DescField → Nat
  | .rx => rxDescDefault
  | .tx => txDescDefault

/-- `rte_eth_dev_adjust_nb_rx_tx_desc`: it fails for a port as a whole, or rounds each number
    to the limits the port has for it. -/
structure DescAdjust where
  ok : Nat → Bool
  round : DescField → Nat → Nat → Nat

/-- A field of a port in the published rib; 0 where there is no rib. -/
def ribDesc (f : DescField) (rib : Option Rib) (port : Nat) : Nat :=
  match rib.bind Rib.ribInfo with
  | none => 0
  | some info =>
      match f with
      | .rx => (info.port port).nbRxd
      | .tx => (info.port port).nbTxd

/-- The arguments of the command; no port is `all`. -/
structure DescCommand where
  port : Option Nat
  field : DescField
  value : Nat

/-- The number a snapshot stands for: 0 is no value there. -/
def descOrDefault (f : DescField) (rib : Option Rib) (port : Nat) : Nat :=
  if ribDesc f rib port ≠ 0 then ribDesc f rib port else f.default

/-- A number in the message of a command: the value set or the one of the snapshot, rounded
    by the driver. -/
def DescCommand.number (a : DescAdjust) (rib : Option Rib) (c : DescCommand) (f : DescField)
    (port : Nat) : Nat :=
  a.round f port (if f = c.field then c.value else descOrDefault f rib port)

/-- The ports a command has a message for. -/
def DescCommand.addresses (a : DescAdjust) (c : DescCommand) (port : Nat) : Bool :=
  (c.port = none ∨ c.port = some port) ∧ a.ok port

/-- The messages of a command. -/
def descMessages (d : Dpdk) (a : DescAdjust) (rib : Option Rib) (c : DescCommand) :
    List RibMsg :=
  (List.range d.nbPorts).filterMap fun port =>
    if c.addresses a port then
      some (.txrxDesc port (c.number a rib .rx port) (c.number a rib .tx port))
    else none

/-! ## The system -/

/-- The usable slots of `msg_queue_rib`, a ring created with size 32. -/
def msgQueueCapacity : Nat := 31

/-- The published rib, the ring, what the current command has left to send, and, for each
    field and port, what the last command addressed to it should lead to. -/
structure DescState where
  rib : Option Rib
  queue : List RibMsg
  sending : List RibMsg
  last : DescField → Nat → Option Nat

/-- Nothing published, no command given. -/
def DescState.init : DescState := ⟨none, [], [], fun _ _ => none⟩

/-- The state after a command read its snapshot. -/
def DescState.command (d : Dpdk) (a : DescAdjust) (s : DescState) (c : DescCommand) :
    DescState where
  rib := s.rib
  queue := s.queue
  sending := descMessages d a s.rib c
  last := fun f port =>
    if f = c.field ∧ port < d.nbPorts ∧ c.addresses a port then
      some (a.round f port c.value)
    else s.last f port

/-- The messages that set descriptor numbers. -/
def RibMsg.isTxrxDesc : RibMsg → Bool
  | .txrxDesc _ _ _ => true
  | _ => false

/-- One step: a command that reads its snapshot, the current command sending its next
    message, somebody else sending a message of another type, or the manager processing a
    message. No message is sent while the ring is full. -/
inductive DescStep (d : Dpdk) (a : DescAdjust) (allowed : DescState → DescCommand → Prop) :
    DescState → DescState → Prop where
  | command (s : DescState) (c : DescCommand) : s.sending = [] → allowed s c →
      DescStep d a allowed s (s.command d a c)
  | send (s : DescState) (msg : RibMsg) (rest : List RibMsg) : s.sending = msg :: rest →
      s.queue.length < msgQueueCapacity →
      DescStep d a allowed s { s with queue := s.queue ++ [msg], sending := rest }
  | other (s : DescState) (msg : RibMsg) : msg.isTxrxDesc = false →
      s.queue.length < msgQueueCapacity →
      DescStep d a allowed s { s with queue := s.queue ++ [msg] }
  | receive (s : DescState) (msg : RibMsg) (rest : List RibMsg) : s.queue = msg :: rest →
      DescStep d a allowed s { s with rib := ribAfter d msg s.rib, queue := rest }

/-- The states of any interleaving. -/
inductive DescRun (d : Dpdk) (a : DescAdjust) (allowed : DescState → DescCommand → Prop) :
    DescState → Prop where
  | init : DescRun d a allowed .init
  | step {s s' : DescState} : DescRun d a allowed s → DescStep d a allowed s s' →
      DescRun d a allowed s'

/-! ## What the messages in flight lead to -/

/-- A field of a port after a message, if it was `v` before. -/
def msgDesc (f : DescField) (port : Nat) (v : Nat) : RibMsg → Nat
  | .txrxDesc portid nbRxd nbTxd =>
      if port = portid then
        match f with
        | .rx => nbRxd
        | .tx => nbTxd
      else v
  | _ => v

/-- A field of a port once the messages are processed, if it is `v` now. -/
def descAfter (f : DescField) (port : Nat) (msgs : List RibMsg) (v : Nat) : Nat :=
  msgs.foldl (msgDesc f port) v

/-- A field of a port once everything in flight is processed. -/
def DescState.eventual (s : DescState) (f : DescField) (port : Nat) : Nat :=
  descAfter f port (s.queue ++ s.sending) (ribDesc f s.rib port)

theorem ribDesc_ribCreate (f : DescField) (rib : Option Rib) (port : Nat) :
    ribDesc f (some ⟨some (ribCreate rib)⟩) port = ribDesc f rib port := by
  cases rib with
  | none => cases f <;> rfl
  | some rib =>
      cases h : rib.ribInfo with
      | none => cases f <;> simp [ribDesc, ribCreate, ribInfoCreate, h, RibInfo.zero, PortConf.zero]
      | some info => cases f <;> simp [ribDesc, ribCreate, ribInfoCreate, h]

/-- Processing a message has the effect on every descriptor number that the message says. -/
theorem ribDesc_ribAfter (d : Dpdk) (msg : RibMsg) (rib : Option Rib) (f : DescField)
    (port : Nat) :
    ribDesc f (ribAfter d msg rib) port = msgDesc f port (ribDesc f rib port) msg := by
  have info : ribDesc f (some ⟨some (ribInfoFor d msg rib)⟩) port =
      msgDesc f port (ribDesc f rib port) msg := by
    rw [← ribDesc_ribCreate f rib port]
    cases msg with
    | portStatus =>
        cases f <;> by_cases h : port < d.nbPorts <;>
          simp [ribDesc, ribInfoFor, updatePortStatus, msgDesc, h]
    | ethLink => rfl
    | qconf q => cases f <;> rfl
    | qconf2 => cases f <;> rfl
    | txrxDesc portid rxd txd =>
        cases f <;> by_cases h : port = portid <;>
          simp [ribDesc, ribInfoFor, updateTxrxDesc, msgDesc, h]
    | unknown => rfl
  rw [ribAfter_eq]
  split
  · rename_i rejected
    cases msg with
    | qconf q => rfl
    | qconf2 => rfl
    | portStatus => exact absurd rejected.1 Bool.false_ne_true
    | ethLink => exact absurd rejected.1 Bool.false_ne_true
    | txrxDesc portid rxd txd => exact absurd rejected.1 Bool.false_ne_true
    | unknown => exact absurd rejected.1 Bool.false_ne_true
  · exact info

theorem descAfter_append (f : DescField) (port : Nat) (msgs msgs' : List RibMsg) (v : Nat) :
    descAfter f port (msgs ++ msgs') v = descAfter f port msgs' (descAfter f port msgs v) :=
  List.foldl_append

/-- A command has one message for each port it addresses. -/
theorem descAfter_descMessages (d : Dpdk) (a : DescAdjust) (rib : Option Rib) (c : DescCommand)
    (f : DescField) (port v : Nat) :
    descAfter f port (descMessages d a rib c) v =
      if port < d.nbPorts ∧ c.addresses a port then c.number a rib f port else v := by
  unfold descMessages
  generalize d.nbPorts = n
  induction n with
  | zero => simp [descAfter]
  | succ n ih =>
      rw [List.range_succ, List.filterMap_append, descAfter_append, ih]
      by_cases addressed : c.addresses a n
      · simp only [List.filterMap_cons, addressed, if_true, List.filterMap_nil, descAfter,
          List.foldl_cons, List.foldl_nil, msgDesc]
        by_cases same : port = n
        · subst same
          simp only [if_true, addressed, Nat.lt_succ_self, true_and]
          cases f <;> rfl
        · have bound : port < n + 1 ↔ port < n := by omega
          simp only [same, if_false, bound]
      · simp only [List.filterMap_cons, addressed, Bool.false_eq_true, if_false,
          List.filterMap_nil, descAfter, List.foldl_nil]
        by_cases same : port = n
        · subst same
          simp [addressed]
        · have bound : port < n + 1 ↔ port < n := by omega
          simp only [bound]

/-! ## No update is lost -/

/-- The messages in flight lead to what the last commands asked for. -/
def NoneLost (s : DescState) : Prop :=
  ∀ f port v, s.last f port = some v → s.eventual f port = v

/-- On every port it addresses, the snapshot of a command stands for what the last command
    asked for in the field that this one does not set. -/
def DescFresh (d : Dpdk) (a : DescAdjust) (s : DescState) (c : DescCommand) : Prop :=
  ∀ port < d.nbPorts, c.addresses a port →
    ∀ v, s.last c.field.other port = some v →
      a.round c.field.other port (descOrDefault c.field.other s.rib port) = v

theorem DescField.other_ne (f : DescField) : f.other ≠ f := by
  cases f <;> decide

theorem DescField.eq_or_eq_other (f g : DescField) : f = g ∨ f = g.other := by
  cases f <;> cases g <;> decide

/-- What a command makes of a field of a port once everything in flight is processed. -/
theorem DescState.eventual_command (d : Dpdk) (a : DescAdjust) {s : DescState}
    (idle : s.sending = []) (c : DescCommand) (f : DescField) (port : Nat) :
    (s.command d a c).eventual f port =
      if port < d.nbPorts ∧ c.addresses a port then c.number a s.rib f port
      else s.eventual f port := by
  rw [DescState.eventual, DescState.eventual, idle, List.append_nil]
  rw [DescState.command, descAfter_append, descAfter_descMessages]

/-- A command loses nothing exactly when its snapshot is fresh. -/
theorem noneLost_command_iff (d : Dpdk) (a : DescAdjust) {s : DescState} (good : NoneLost s)
    (idle : s.sending = []) (c : DescCommand) :
    NoneLost (s.command d a c) ↔ DescFresh d a s c := by
  constructor
  · intro kept port hport addressed v asked
    have other : (s.command d a c).last c.field.other port = some v := by
      simp only [DescState.command, c.field.other_ne, false_and, if_false, asked]
    have number := kept c.field.other port v other
    rw [s.eventual_command d a idle, if_pos ⟨hport, addressed⟩, DescCommand.number,
      if_neg c.field.other_ne] at number
    exact number
  · intro fresh f port v asked
    rw [s.eventual_command d a idle]
    by_cases reached : port < d.nbPorts ∧ c.addresses a port
    · rw [if_pos reached, DescCommand.number]
      rcases f.eq_or_eq_other c.field with rfl | rfl
      · simp only [DescState.command, reached, and_self, if_true, Option.some.injEq] at asked
        rw [if_pos rfl]
        exact asked
      · simp only [DescState.command, c.field.other_ne, false_and, if_false] at asked
        rw [if_neg c.field.other_ne]
        exact fresh port reached.1 reached.2 v asked
    · rw [if_neg reached]
      simp only [DescState.command, reached, and_false, if_false] at asked
      exact good f port v asked

theorem msgDesc_of_not_txrxDesc {msg : RibMsg} (kind : msg.isTxrxDesc = false) (f : DescField)
    (port v : Nat) : msgDesc f port v msg = v := by
  cases msg with
  | txrxDesc portid nbRxd nbTxd => cases kind
  | portStatus => rfl
  | ethLink => rfl
  | qconf q => rfl
  | qconf2 => rfl
  | unknown => rfl

/-- Sending and processing messages leave what everything in flight leads to. -/
theorem DescStep.noneLost {d : Dpdk} {a : DescAdjust} {s s' : DescState}
    (step : DescStep d a (DescFresh d a) s s') (good : NoneLost s) : NoneLost s' := by
  cases step with
  | command c idle fresh => exact (noneLost_command_iff d a good idle c).mpr fresh
  | send msg rest sending room =>
      intro f port v asked
      rw [← good f port v asked, DescState.eventual, DescState.eventual, sending,
        List.append_assoc]
      rfl
  | other msg kind room =>
      intro f port v asked
      have kept (n : Nat) : descAfter f port [msg] n = n := msgDesc_of_not_txrxDesc kind f port n
      rw [← good f port v asked, DescState.eventual, DescState.eventual]
      simp only [descAfter_append, kept]
  | receive msg rest queue =>
      intro f port v asked
      rw [← good f port v asked, DescState.eventual, DescState.eventual, queue, List.cons_append]
      rw [ribDesc_ribAfter]
      rfl

theorem DescRun.noneLost {d : Dpdk} {a : DescAdjust} {s : DescState}
    (run : DescRun d a (DescFresh d a) s) : NoneLost s := by
  induction run with
  | init =>
      intro f port v asked
      cases asked
  | step _ step ih => exact step.noneLost ih

/-- Once everything is processed, the next command is fresh, unless a number asked for is
    one the snapshot cannot stand for: 0, or one the driver rounds once more. -/
theorem descFresh_of_drained {d : Dpdk} {a : DescAdjust} {s : DescState}
    (run : DescRun d a (DescFresh d a) s) (queue : s.queue = []) (idle : s.sending = [])
    (settled : ∀ f port v, s.last f port = some v → v ≠ 0 ∧ a.round f port v = v)
    (c : DescCommand) : DescFresh d a s c := by
  intro port _ _ v asked
  have published : ribDesc c.field.other s.rib port = v := by
    rw [← run.noneLost _ _ _ asked, DescState.eventual, queue, idle]
    rfl
  obtain ⟨set, fixed⟩ := settled _ _ _ asked
  rw [descOrDefault, published, if_pos set, fixed]

/-- In every interleaving in which each command has a fresh snapshot, the drained system
    publishes the last number each command asked for. -/
theorem txrxDesc_last {d : Dpdk} {a : DescAdjust} {s : DescState}
    (run : DescRun d a (DescFresh d a) s) (queue : s.queue = []) (idle : s.sending = [])
    {f : DescField} {port v : Nat} (asked : s.last f port = some v) :
    ribDesc f s.rib port = v := by
  have lost := run.noneLost f port v asked
  rw [DescState.eventual, queue, idle] at lost
  exact lost

/-! ## Two commands in flight -/

/-- A driver that takes every number as it is. -/
def adjustNone : DescAdjust := ⟨fun _ => true, fun _ _ v => v⟩

/-- The two commands, for the only port. -/
def nrxdescCommand : DescCommand := ⟨some 0, .rx, 512⟩
def ntxdescCommand : DescCommand := ⟨some 0, .tx, 256⟩

/-- The second command waits until the message of the first one is processed. -/
theorem txrxDesc_last_drained :
    ∃ s : DescState, s.queue = [] ∧ s.last .rx 0 = some 512 ∧ ribDesc .rx s.rib 0 = 512 := by
  have first : DescRun onePort adjustNone (DescFresh onePort adjustNone) _ :=
    .step .init (.command _ nrxdescCommand rfl (by
      intro _ _ _ v asked
      cases asked))
  have sent := first.step (.send _ _ _ rfl (by decide))
  have drained := sent.step (.receive _ _ _ rfl)
  have second := drained.step (.command _ ntxdescCommand rfl (by
    intro port hport _ v asked
    have zero : port = 0 := Nat.lt_one_iff.mp hport
    subst zero
    cases asked
    decide))
  have sent' := second.step (.send _ _ _ rfl (by decide))
  have drained' := sent'.step (.receive _ _ _ rfl)
  exact ⟨_, rfl, rfl, txrxDesc_last drained' rfl rfl rfl⟩

/-- Here the second command reads its snapshot before the message of the first one is
    processed, and its message takes the rx number back to the default. -/
theorem txrxDesc_lost :
    ¬ ∀ (d : Dpdk) (a : DescAdjust) (s : DescState), DescRun d a (fun _ _ => True) s →
      s.queue = [] → s.sending = [] → ∀ (f : DescField) (port v : Nat),
        s.last f port = some v → ribDesc f s.rib port = v := by
  intro kept
  have first : DescRun onePort adjustNone (fun _ _ => True) _ :=
    .step .init (.command _ nrxdescCommand rfl trivial)
  have sent := first.step (.send _ _ _ rfl (by decide))
  have second := sent.step (.command _ ntxdescCommand rfl trivial)
  have sent' := second.step (.send _ _ _ rfl (by decide))
  have received := sent'.step (.receive _ _ _ rfl)
  have drained := received.step (.receive _ _ _ rfl)
  have lost := kept _ _ _ drained rfl rfl .rx 0 512 rfl
  revert lost
  decide

end Sdplane
