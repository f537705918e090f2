import Mathlib.Data.BitVec

/-!
# RIB data types

The configuration the RIB carries (`sdplane/rib.h`, `sdplane/queue_config.h`) and the
constants that size it. A `rx_queue_list` with its `nrxq` is the list of its first `nrxq`
entries, an array indexed by port or lcore a function. `uint16_t` ids and descriptor
numbers are natural numbers.
-/

namespace Sdplane

/-- DPDK's default `RTE_MAX_LCORE`. -/
def rteMaxLcore : Nat := 128

/-- DPDK's default `RTE_MAX_ETHPORTS`. -/
def rteMaxEthports : Nat := 32

/-- `MAX_RX_QUEUE_PER_LCORE` (`queue_config.h:9-11`). -/
def maxRxQueuePerLcore : Nat := 16

/-- `struct port_queue_conf`. -/
structure PortQueueConf where
  portId : Nat
  queueId : Nat
  deriving DecidableEq

/-- `struct rte_eth_link`, as far as it is looked at. -/
structure EthLink where
  linkStatus : Bool
  deriving DecidableEq

/-- `struct rte_eth_dev_info`, as far as it is looked at; `fastFree` is the
    `RTE_ETH_TX_OFFLOAD_MBUF_FAST_FREE` bit of `tx_offload_capa`. -/
structure EthDevInfo where
  nbRxQueues : Nat
  nbTxQueues : Nat
  fastFree : Bool
  deriving DecidableEq

/-- `struct port_conf` (`rib.h:25-31`). -/
structure PortConf where
  nbRxd : Nat
  nbTxd : Nat
  link : EthLink
  devInfo : EthDevInfo
  deriving DecidableEq

/-- `struct rib_info` (`rib.h:41-51`). -/
structure RibInfo where
  ver : BitVec 32
  portSize : BitVec 8
  lcoreSize : BitVec 8
  port : Nat → PortConf
  lcoreQconf : Nat → List PortQueueConf

/-- `struct rib`; the intermediate rib of a queue change has no `rib_info`. -/
structure Rib where
  ribInfo : Option RibInfo

/-- A port nobody has configured, as `memset` leaves it. -/
def PortConf.zero : PortConf := ⟨0, 0, ⟨false⟩, ⟨0, 0, false⟩⟩

/-- A `rib_info` that `memset` cleared. -/
def RibInfo.zero : RibInfo := ⟨0, 0, 0, fun _ => .zero, fun _ => []⟩

end Sdplane
