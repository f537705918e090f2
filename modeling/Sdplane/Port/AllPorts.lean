import Sdplane.Misc.CarryLoop
import Sdplane.Rib.Check

/-!
# Commands for all ports

`set port <port>|all flowcontrol <item> on|off` and `set port <port>|all dev-configure <rx>
<tx>` (`dpdk_port_cmd.c:451-659`). Both loops keep variables outside of their bodies: what
the flow control of a port was, or what it can offload, is carried to the ports behind it.
-/

namespace Sdplane

/-- `enum rte_eth_fc_mode`. -/
inductive FcMode
  | none
  | rxPause
  | txPause
  | full
  deriving DecidableEq

/-- `struct rte_eth_fc_conf`. -/
structure FcConf where
  highWater : Nat
  lowWater : Nat
  pauseTime : Nat
  sendXon : Nat
  mode : FcMode
  macCtrlFrameFwd : Nat
  autoneg : Nat
  deriving DecidableEq

/-- What the driver was told about a port. `flowCtrl` is none where
    `rte_eth_dev_flow_ctrl_get` fails, `devInfo` where `rte_eth_dev_info_get` does;
    `txFastFree` is the bit of `txmode.offloads`. -/
structure EthPort where
  flowCtrl : Option FcConf
  devInfo : Option EthDevInfo
  nbRxQueue : Nat
  nbTxQueue : Nat
  txFastFree : Bool
  rxQueue : Nat → Nat
  txQueue : Nat → Nat × Bool
  txBuffer : Nat → Bool

/-- What `argv[4]` is compared with; the handler knows `all`, the grammar does not. An
    abbreviated word is none of these. -/
inductive FcItem
  | rx
  | tx
  | autoneg
  | sendXon
  | fwdMacCtrl
  | all
  | other
  deriving DecidableEq

/-- The variables outside of the loop. -/
structure FcFlags where
  rxEnabled : Bool
  txEnabled : Bool
  deriving DecidableEq

/-- The mode that is filled back. -/
def fcMode (rx tx : Bool) : FcMode :=
  if rx ∧ tx then .full
  else if rx then .rxPause
  else if tx then .txPause
  else .none

/-- The round of `set_port_flowcontrol` for a port. -/
def flowcontrolPort (item : FcItem) (newval : Bool) (k : FcFlags) (p : EthPort) :
    FcFlags × EthPort :=
  match p.flowCtrl with
  | none => (k, p)
  | some fc =>
      let rx := if fc.mode = .full ∨ fc.mode = .rxPause then true else k.rxEnabled
      let tx := if fc.mode = .full ∨ fc.mode = .txPause then true else k.txEnabled
      let rx := if item = .rx ∨ item = .all then newval else rx
      let tx := if item = .tx ∨ item = .all then newval else tx
      let fc := if item = .autoneg ∨ item = .all then { fc with autoneg := newval.toNat } else fc
      let fc := if item = .sendXon ∨ item = .all then { fc with sendXon := newval.toNat } else fc
      let fc :=
        if item = .fwdMacCtrl ∨ item = .all then { fc with macCtrlFrameFwd := newval.toNat }
        else fc
      (⟨rx, tx⟩, { p with flowCtrl := some { fc with mode := fcMode rx tx } })

/-- The round of `set_port_dev_configure` for a port; `k` is the bit in `port_conf`. -/
def devConfigurePort (nbRx nbTx : Nat) (k : Bool) (p : EthPort) : Bool × EthPort :=
  match p.devInfo with
  | none => (k, p)
  | some info =>
      let offload := if info.fastFree then true else k
      (offload,
        { p with
          nbRxQueue := nbRx
          nbTxQueue := nbTx
          txFastFree := offload
          rxQueue := fun i => if i < nbRx then rxDescDefault else p.rxQueue i
          txQueue := fun i => if i < nbTx then (txDescDefault, offload) else p.txQueue i
          txBuffer := fun i => i < nbTx || p.txBuffer i })

inductive SetPortCommand
  | flowcontrol (item : FcItem) (newval : Bool)
  | devConfigure (nbRx nbTx : Nat)

/-- The ports after the command; `portSpec` is -1 for `all`. -/
def SetPortCommand.run (portSpec : Int) (ports : List EthPort) : SetPortCommand → List EthPort
  | .flowcontrol item newval =>
      carryLoop (flowcontrolPort item newval) (fun i => portSpec = -1 ∨ portSpec = i) 0
        ⟨false, false⟩ ports
  | .devConfigure nbRx nbTx =>
      carryLoop (devConfigurePort nbRx nbTx) (fun i => portSpec = -1 ∨ portSpec = i) 0 false ports

/-- `all` leaves each port as the command with the port's number would. -/
def AllAsEach (c : SetPortCommand) (ports : List EthPort) : Prop :=
  ∀ port : Nat, (c.run (-1) ports)[port]? = (c.run port ports)[port]?

/-! ## What is carried -/

def EthPort.rxPause (p : EthPort) : Bool :=
  match p.flowCtrl with
  | none => false
  | some fc => fc.mode = .full ∨ fc.mode = .rxPause

def EthPort.txPause (p : EthPort) : Bool :=
  match p.flowCtrl with
  | none => false
  | some fc => fc.mode = .full ∨ fc.mode = .txPause

def EthPort.fastFree (p : EthPort) : Bool :=
  match p.devInfo with
  | none => false
  | some info => info.fastFree

/-- The properties of a port that a command carries on. -/
def SetPortCommand.carries : SetPortCommand → List (EthPort → Bool)
  | .flowcontrol item _ =>
      (if item = .rx ∨ item = .all then [] else [EthPort.rxPause]) ++
        if item = .tx ∨ item = .all then [] else [EthPort.txPause]
  | .devConfigure _ _ => [EthPort.fastFree]

/-- The port answers what the command asks first. -/
def SetPortCommand.answers (p : EthPort) : SetPortCommand → Bool
  | .flowcontrol _ _ => p.flowCtrl.isSome
  | .devConfigure _ _ => p.devInfo.isSome

/-- The mode tells both flags. -/
theorem fcMode_inj {rx tx rx' tx' : Bool} : fcMode rx tx = fcMode rx' tx' ↔ rx = rx' ∧ tx = tx' := by
  revert rx tx rx' tx'
  decide

theorem flowcontrolPort_rxEnabled {item : FcItem} (kept : ¬(item = .rx ∨ item = .all))
    (newval : Bool) (k : FcFlags) (p : EthPort) :
    (flowcontrolPort item newval k p).1.rxEnabled = (k.rxEnabled || p.rxPause) := by
  rw [flowcontrolPort, EthPort.rxPause]
  cases p.flowCtrl with
  | none => simp
  | some fc =>
      simp only [if_neg kept]
      split <;> simp_all

theorem flowcontrolPort_txEnabled {item : FcItem} (kept : ¬(item = .tx ∨ item = .all))
    (newval : Bool) (k : FcFlags) (p : EthPort) :
    (flowcontrolPort item newval k p).1.txEnabled = (k.txEnabled || p.txPause) := by
  rw [flowcontrolPort, EthPort.txPause]
  cases p.flowCtrl with
  | none => simp
  | some fc =>
      simp only [if_neg kept]
      split <;> simp_all

/-- A flag that the command does not set, told from `false`. -/
theorem flag_eq_iff {set own : Prop} [Decidable set] [Decidable own] {newval k : Bool} :
    ((if set then newval else if own then true else k) =
        if set then newval else if own then true else false) ↔
      (¬set → k = true → own) := by
  by_cases set
  · simp [*]
  · by_cases own <;> simp [*]

/-- What the port is told depends on the flags it cannot hide behind its own. -/
theorem flowcontrolPort_eq_iff (item : FcItem) (newval : Bool) (k : FcFlags) (p : EthPort) :
    (flowcontrolPort item newval k p).2 = (flowcontrolPort item newval ⟨false, false⟩ p).2 ↔
      (¬(item = .rx ∨ item = .all) → k.rxEnabled = true → p.flowCtrl.isSome → p.rxPause = true) ∧
        (¬(item = .tx ∨ item = .all) → k.txEnabled = true → p.flowCtrl.isSome → p.txPause = true) := by
  rw [flowcontrolPort, flowcontrolPort, EthPort.rxPause, EthPort.txPause]
  cases p.flowCtrl with
  | none => simp
  | some fc =>
      simp only [EthPort.mk.injEq, Option.some.injEq, FcConf.mk.injEq, fcMode_inj, true_and,
        and_true, Option.isSome_some, forall_true_left, decide_eq_true_eq]
      exact and_congr flag_eq_iff flag_eq_iff

theorem devConfigurePort_carries (nbRx nbTx : Nat) (k : Bool) (p : EthPort) :
    (devConfigurePort nbRx nbTx k p).1 = (k || p.fastFree) := by
  rw [devConfigurePort, EthPort.fastFree]
  cases p.devInfo with
  | none => simp
  | some info => simp [Bool.or_comm]

theorem devConfigurePort_eq_iff (nbRx nbTx : Nat) (k : Bool) (p : EthPort) :
    (devConfigurePort nbRx nbTx k p).2 = (devConfigurePort nbRx nbTx false p).2 ↔
      (k = true → p.devInfo.isSome → p.fastFree = true) := by
  rw [devConfigurePort, devConfigurePort, EthPort.fastFree]
  cases p.devInfo with
  | none => simp
  | some info =>
      constructor
      · intro same raised _
        have bit := congrArg EthPort.txFastFree same
        simpa [raised] using bit
      · intro own
        cases k with
        | false => rfl
        | true => simp only [if_pos (own rfl rfl)]

/-- A flag that is carried unless it is set anew. -/
theorem forall_mem_unless {set : Prop} [Decidable set] {flag : EthPort → Bool}
    {P : (EthPort → Bool) → Prop} :
    (∀ f ∈ if set then [] else [flag], P f) ↔ (¬ set → P flag) := by
  split
  · rename_i anew
    exact iff_of_true (fun _ none => absurd none List.not_mem_nil) (absurd anew)
  · rename_i kept
    rw [List.forall_mem_singleton, imp_iff_right kept]

/-- The command leaves each port as alone exactly when no port hands on what a port behind
    it, that answers, has not got itself. -/
theorem allAsEach_iff (c : SetPortCommand) (ports : List EthPort) :
    AllAsEach c ports ↔ ∀ flag ∈ c.carries,
      ports.Pairwise fun p q => flag p = true → c.answers q = true → flag q = true := by
  have all : ∀ i : Nat, decide ((-1 : Int) = -1 ∨ (-1 : Int) = i) = true := fun i => by simp
  have one : ∀ j i : Nat, decide ((j : Int) = -1 ∨ (j : Int) = i) = true ↔ i = j := by
    intro j i
    rw [decide_eq_true_eq]
    omega
  have pairs := fun flag => pairwise_flag_iff flag
    (fun q => c.answers q = true → flag q = true) ports
  cases c with
  | flowcontrol item newval =>
      refine (carryLoop_all_eq_one_iff (flowcontrolPort item newval) all one ⟨false, false⟩
        ports).trans ?_
      have rx : ∀ kept j, (carried (flowcontrolPort item newval) ⟨false, false⟩
          (ports.take j)).rxEnabled = (ports.take j).any EthPort.rxPause := fun kept j =>
        carried_flag (flowcontrolPort_rxEnabled kept newval) ⟨false, false⟩ (ports.take j)
      have tx : ∀ kept j, (carried (flowcontrolPort item newval) ⟨false, false⟩
          (ports.take j)).txEnabled = (ports.take j).any EthPort.txPause := fun kept j =>
        carried_flag (flowcontrolPort_txEnabled kept newval) ⟨false, false⟩ (ports.take j)
      simp only [flowcontrolPort_eq_iff, SetPortCommand.carries, List.forall_mem_append,
        forall_mem_unless, pairs]
      constructor
      · intro each
        refine ⟨fun kept j q here raised => ?_, fun kept j q here raised => ?_⟩
        · exact (each j q here).1 kept ((rx kept j).trans raised)
        · exact (each j q here).2 kept ((tx kept j).trans raised)
      · intro ⟨rxFlags, txFlags⟩ j q here
        refine ⟨fun kept raised => ?_, fun kept raised => ?_⟩
        · exact rxFlags kept j q here ((rx kept j).symm.trans raised)
        · exact txFlags kept j q here ((tx kept j).symm.trans raised)
  | devConfigure nbRx nbTx =>
      refine (carryLoop_all_eq_one_iff (devConfigurePort nbRx nbTx) all one false ports).trans ?_
      have bit : ∀ j, carried (devConfigurePort nbRx nbTx) false (ports.take j) =
          (ports.take j).any EthPort.fastFree := fun j =>
        @carried_flag _ _ _ id _ (devConfigurePort_carries nbRx nbTx) false (ports.take j)
      simp only [devConfigurePort_eq_iff, SetPortCommand.carries, List.forall_mem_singleton, pairs,
        bit]
      rfl

/-- A port with this flow control mode that can offload or not. -/
def ethPortOf (mode : FcMode) (fastFree : Bool) : EthPort where
  flowCtrl := some ⟨0, 0, 0, 0, mode, 0, 0⟩
  devInfo := some ⟨1, 1, fastFree⟩
  nbRxQueue := 1
  nbTxQueue := 1
  txFastFree := fastFree
  rxQueue := fun _ => 0
  txQueue := fun _ => (0, false)
  txBuffer := fun _ => false

/-- Port 0 pauses in both directions and can offload, port 1 neither. -/
theorem allAsEach_not :
    ¬AllAsEach (.flowcontrol .rx true) [ethPortOf .full true, ethPortOf .none false] ∧
      ¬AllAsEach (.devConfigure 1 1) [ethPortOf .full true, ethPortOf .none false] := by
  constructor
  · intro each
    have mode := congrArg (Option.map EthPort.flowCtrl) (each 1)
    revert mode
    decide
  · intro each
    have bit := congrArg (Option.map EthPort.txFastFree) (each 1)
    revert bit
    decide

end Sdplane
