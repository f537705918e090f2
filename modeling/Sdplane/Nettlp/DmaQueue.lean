import Sdplane.Misc.Mailbox
import Sdplane.Nettlp.DmaSession

/-!
# The commands of a NetTLP thread

`set nettlp` and `nettlp-send` (`nettlp.c:821-1069`) on one side of `msg_queue_nettlp`, the NetTLP
thread (`nettlp.c:449-476` and `767-819`) on the other. A DMA command is nothing but its kind; the
settings it is carried out with are those there are when the thread comes to it.
-/

namespace Sdplane

/-- The kinds of a message (`internal_message.h:18-19`). -/
inductive DmaMsg where
  | sendDmaWrite
  | sendDmaRead
  deriving DecidableEq

/-- `set nettlp`, as what it stores into the settings, and `nettlp-send`. -/
inductive NettlpCommand where
  | set (store : NettlpConf → NettlpConf)
  | send (msg : DmaMsg)

/-- The usable slots of `msg_queue_nettlp`, a ring created with size 32. -/
def msgQueueNettlpCapacity : Nat := 31

/-- The settings, the ring, and the DMA commands that were carried out with the settings they
    found. -/
def nettlpMailbox : Mailbox NettlpConf NettlpCommand DmaMsg (List (NettlpConf × DmaMsg)) where
  command
    | .set store, c => store c
    | .send _, c => c
  message
    | .set _, _ => none
    | .send msg, _ => some msg
  process c msg done := done ++ [(c, msg)]
  capacity := msgQueueNettlpCapacity

/-- Before the first command. -/
def nettlpStart (c : NettlpConf) : MailState NettlpConf DmaMsg (List (NettlpConf × DmaMsg)) :=
  ⟨c, .empty, []⟩

/-- The DMA commands with the settings there are when they are typed. -/
def typedDma : List NettlpCommand → NettlpConf → List (NettlpConf × DmaMsg)
  | [], _ => []
  | .set store :: ks, c => typedDma ks (store c)
  | .send msg :: ks, c => (c, msg) :: typedDma ks c

/-- What a command asks the memory of the peer for. -/
def typedRequest (x : NettlpConf × DmaMsg) : StoreRequest :=
  match x.2 with
  | .sendDmaWrite => .write x.1.memoryAddr.toNat (x.1.payloadString.read 0 x.1.payloadSize)
  | .sendDmaRead => .read x.1.memoryAddr.toNat readPayloadSize

/-- What carried out a message. -/
def DmaKind.msg : DmaKind → DmaMsg
  | .write _ => .sendDmaWrite
  | .read => .sendDmaRead

/-- The command was carried out: with these settings, for this message, and a frame went out. -/
structure DmaCommand.CarriesOut (d : DmaCommand) (x : NettlpConf × DmaMsg) : Prop where
  conf : d.conf = x.1
  kind : d.kind.msg = x.2
  sent : d.send.isSome = true

theorem DmaCommand.CarriesOut.request_eq {d : DmaCommand} {x : NettlpConf × DmaMsg}
    (out : d.CarriesOut x) : d.request = typedRequest x := by
  have kind := out.kind
  rw [request, typedRequest, ← out.conf, ← kind]
  cases d.kind <;> rfl

theorem requests_of_carriesOut {ds : List DmaCommand} {xs : List (NettlpConf × DmaMsg)}
    (out : List.Forall₂ DmaCommand.CarriesOut ds xs) :
    DmaCommand.requests ds = xs.map typedRequest := by
  induction out with
  | nil => rfl
  | cons here _ ih =>
      rw [DmaCommand.requests, List.filter_cons, if_pos here.sent, List.map_cons, List.map_cons,
        here.request_eq, ← ih]
      rfl

/-- What `nettlp-send` would do at once. -/
theorem foldl_direct_nettlp (ks : List NettlpCommand) (c : NettlpConf)
    (done : List (NettlpConf × DmaMsg)) :
    (ks.foldl nettlpMailbox.direct (c, done)).2 = done ++ typedDma ks c := by
  induction ks generalizing c done with
  | nil => exact (List.append_nil done).symm
  | cons k ks ih =>
      cases k with
      | set store => exact ih _ _
      | send msg =>
          refine (ih c (done ++ [(c, msg)])).trans ?_
          rw [typedDma, List.append_assoc]
          rfl

/-- No setting is changed while a DMA command waits: then what a message does is not changed. -/
theorem calm_set_iff (store : NettlpConf → NettlpConf)
    (s : MailState NettlpConf DmaMsg (List (NettlpConf × DmaMsg))) :
    nettlpMailbox.Calm (.set store) s ↔ s.ring.held = [] ∨ store s.sender = s.sender := by
  constructor
  · intro calm
    cases held : s.ring.held with
    | nil => exact .inl rfl
    | cons m ms =>
        have same := calm m (by rw [held]; exact List.mem_cons_self) []
        exact .inr (Prod.mk.inj (List.singleton_inj.mp same)).1
  · rintro (empty | same) m mem r
    · rw [empty] at mem
      cases mem
    · change r ++ [(store s.sender, m)] = r ++ [(s.sender, m)]
      rw [same]

/-- The settings are changed only while no DMA command waits, or to what they are. -/
def SettledRun (acts : List (MailAct NettlpCommand)) (c : NettlpConf) : Prop :=
  nettlpMailbox.CalmRun acts (nettlpStart c)

/-- A write and a read, each carried out before the settings are changed. -/
def typedWriteRead : List (MailAct NettlpCommand) :=
  [.command (.set fun c => { c with
      memoryAddr := 0x1001
      payloadSize := 3
      payloadString := ByteMem.ofList [1, 2, 3] }),
    .command (.send .sendDmaWrite), .receive,
    .command (.set fun _ => { NettlpConf.initial with memoryAddr := 0x1000 }),
    .command (.send .sendDmaRead), .receive]

end Sdplane
