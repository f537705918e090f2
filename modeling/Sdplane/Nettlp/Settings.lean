import Sdplane.Misc.Numeral
import Sdplane.Nettlp.Frame
import Sdplane.Zcmdsh.CommandSpec
import Sdplane.Zcmdsh.Filled
import Sdplane.Zcmdsh.Script
import Sdplane.Zcmdsh.ValidatedWord

/-!
# The settings of NetTLP

The commands that read a number and put it into a variable of `nettlp.c` (`nettlp.c:944-1052`),
installed among others, and the lines of a script that set these variables.
-/

namespace Sdplane

/-- The variables of the requests, and three that are only shown. -/
structure NettlpSettings extends NettlpConf where
  busNumber : BitVec 16
  devNumber : BitVec 16
  maxPayloadSize : Int

/-! ## The functions -/

section
variable (argv : List (Option (List Byte))) (s : NettlpSettings)

/-- A `long` in an `int`. -/
def intOfLong (v : BitVec 64) : Int := (v.setWidth 32).toInt

/-- A command that reads `argv[3]`. -/
def setNettlpNumber (read : List Byte → BitVec 64)
    (store : BitVec 64 → NettlpSettings → NettlpSettings) : Option NettlpSettings := do
  let word ← argv[3]?.join
  return store (read word) s

/-- `set_nettlp_bus_number`. -/
def setNettlpBusNumber : Option NettlpSettings := do
  let bus ← argv[3]?.join
  let dev ← argv[5]?.join
  let busNumber := (strtol 0 bus).1.setWidth 16
  let devNumber := (strtol 0 dev).1.setWidth 16
  return { s with busNumber, devNumber, requester := busNumber <<< 8 ||| devNumber }

/-- `set_nettlp_pci_tag`. -/
def setNettlpPciTag : Option NettlpSettings :=
  setNettlpNumber argv s (fun word => (strtol 0 word).1) fun v s =>
    { s with pciTag := v.setWidth 8 }

/-- `set_nettlp_txportid`. -/
def setNettlpTxportid : Option NettlpSettings :=
  setNettlpNumber argv s (fun word => (strtol 0 word).1) fun v s =>
    { s with txPortid := (intOfLong v).toNat }

/-- `set_nettlp_udp_port`; there is no third port to store the number in. -/
def setNettlpUdpPort : Option NettlpSettings := do
  let field ← argv[3]?.join
  let word ← argv[4]?.join
  let port := (strtol 0 word).1.setWidth 16
  if field = litString "src-port" then some { s with srcPort := port }
  else if field = litString "dst-port" then some { s with dstPort := port }
  else none

/-- `set_nettlp_memory_addr`. -/
def setNettlpMemoryAddr : Option NettlpSettings :=
  setNettlpNumber argv s (fun word => (strtoul 0 word).1) fun v s => { s with memoryAddr := v }

/-- `set_nettlp_payload_size`. -/
def setNettlpPayloadSize : Option NettlpSettings :=
  setNettlpNumber argv s (fun word => (strtoul 0 word).1) fun v s =>
    { s with payloadSize := (intOfLong v).toNat }

/-- `set_nettlp_max_payload_size`. -/
def setNettlpMaxPayloadSize : Option NettlpSettings :=
  setNettlpNumber argv s (fun word => (strtoul 0 word).1) fun v s =>
    { s with maxPayloadSize := intOfLong v }

end

/-! ## The commands -/

inductive NettlpSet where
  | busNumber | pciTag | txportid | udpPort | memoryAddr | payloadSize | maxPayloadSize
deriving DecidableEq

namespace NettlpSet

/-- In the order of `nettlp_cmd_init`. -/
def all : List NettlpSet :=
  [busNumber, pciTag, txportid, udpPort, memoryAddr, payloadSize, maxPayloadSize]

def cmdstr : NettlpSet → List Byte
  | busNumber => litString "set nettlp bus-number <0-65535> device-number <0-65535>"
  | pciTag => litString "set nettlp pci-tag <0-255>"
  | txportid => litString "set nettlp tx-portid <0-128>"
  | udpPort => litString "set nettlp udp (src-port|dst-port) <0-65535>"
  | memoryAddr => litString "set nettlp memory-address <WORD>"
  | payloadSize => litString "set nettlp payload-size <0-4096>"
  | maxPayloadSize => litString "set nettlp max-payload-size <0-4096>"

def helpstr : NettlpSet → List Byte
  | busNumber => litString ("set information\nNetTLP information.\nSet bus-number.\n" ++
      "Specify bus-number (i.e. 0x1234 in Hex).\nSet device-number.\n" ++
      "Specify device-number (i.e. 0x1234 in Hex).\n")
  | pciTag => litString "set information\nNetTLP information.\nSet PCI tag.\nSpecify PCI tag.\n"
  | txportid => litString ("set information\nNetTLP information.\nSet transmission port-id.\n" ++
      "Specify transmission port-id.\n")
  | udpPort => litString ("set information\nNetTLP information.\nUDP information.\n" ++
      "Set UDP src port.\nSet UDP dst port.\nSpecify UDP port.\n")
  | memoryAddr => litString ("set information\nNetTLP information.\nSet core memory address.\n" ++
      "Specify core memory address.\n")
  | payloadSize => litString ("set information\nNetTLP information.\nSet payload-size.\n" ++
      "Specify size.\n")
  | maxPayloadSize => litString ("set information\nNetTLP information.\n" ++
      "Set Max Payload Size (mps).\nSpecify Max Payload Size.\n")

/-- The words of a command; for a UDP port, those of the source or of the destination. -/
def path (source : Bool) : NettlpSet → List (List Byte)
  | busNumber =>
      [litString "set", litString "nettlp", litString "bus-number", litString "<0-65535>",
        litString "device-number", litString "<0-65535>"]
  | pciTag => [litString "set", litString "nettlp", litString "pci-tag", litString "<0-255>"]
  | txportid => [litString "set", litString "nettlp", litString "tx-portid", litString "<0-128>"]
  | udpPort =>
      [litString "set", litString "nettlp", litString "udp",
        if source then litString "src-port" else litString "dst-port", litString "<0-65535>"]
  | memoryAddr =>
      [litString "set", litString "nettlp", litString "memory-address", litString "<WORD>"]
  | payloadSize =>
      [litString "set", litString "nettlp", litString "payload-size", litString "<0-4096>"]
  | maxPayloadSize =>
      [litString "set", litString "nettlp", litString "max-payload-size", litString "<0-4096>"]

def run (argv : List (Option (List Byte))) (s : NettlpSettings) :
    NettlpSet → Option NettlpSettings
  | busNumber => setNettlpBusNumber argv s
  | pciTag => setNettlpPciTag argv s
  | txportid => setNettlpTxportid argv s
  | udpPort => setNettlpUdpPort argv s
  | memoryAddr => setNettlpMemoryAddr argv s
  | payloadSize => setNettlpPayloadSize argv s
  | maxPayloadSize => setNettlpMaxPayloadSize argv s

end NettlpSet

/-- What `nettlp_cmd_init` installs for them, among commands with other functions. -/
def nettlpSpecs (ψ : Type) : List (CommandHeader (NettlpSet ⊕ ψ)) :=
  NettlpSet.all.map fun set => ⟨set.cmdstr, set.helpstr, .inl set⟩

/-- The commands with what they print; debugging is off. -/
def nettlpSystem {ψ : Type} (libc : Libc) (cmdset : CommandSet (NettlpSet ⊕ ψ))
    (printed : NettlpSet → List (Option (List Byte)) → NettlpSettings → List Byte)
    (other : ψ → List (Option (List Byte)) → NettlpSettings → NettlpSettings × Effect) :
    CommandSystem (NettlpSet ⊕ ψ) NettlpSettings where
  libc := libc
  cmdset := cmdset
  call := fun func argv s =>
    match func with
    | .inl set => ((set.run argv s).getD s, ⟨printed set argv s, false, false, none⟩)
    | .inr func => other func argv s

/-! ## Settings -/

/-- A setting, with the numbers as they are written. -/
inductive Setting where
  | busNumber (bus dev : Numeral)
  | pciTag (tag : Numeral)
  | txportid (port : Numeral)
  | udpPort (source : Bool) (port : Numeral)
  | memoryAddr (addr : Numeral)
  | payloadSize (size : Numeral)
  | maxPayloadSize (size : Numeral)

namespace Setting

def set : Setting → NettlpSet
  | busNumber .. => .busNumber
  | pciTag .. => .pciTag
  | txportid .. => .txportid
  | udpPort .. => .udpPort
  | memoryAddr .. => .memoryAddr
  | payloadSize .. => .payloadSize
  | maxPayloadSize .. => .maxPayloadSize

/-- `set nettlp …`. -/
def pieces (t : Setting) : List Piece :=
  .keyword (litString "set") :: .keyword (litString "nettlp") :: match t with
  | busNumber bus dev =>
      [.keyword (litString "bus-number"), ⟨litString "<0-65535>", bus.text⟩,
        .keyword (litString "device-number"), ⟨litString "<0-65535>", dev.text⟩]
  | pciTag tag => [.keyword (litString "pci-tag"), ⟨litString "<0-255>", tag.text⟩]
  | txportid port => [.keyword (litString "tx-portid"), ⟨litString "<0-128>", port.text⟩]
  | udpPort source port =>
      [.keyword (litString "udp"),
        .keyword (if source then litString "src-port" else litString "dst-port"),
        ⟨litString "<0-65535>", port.text⟩]
  | memoryAddr addr => [.keyword (litString "memory-address"), ⟨litString "<WORD>", addr.text⟩]
  | payloadSize size => [.keyword (litString "payload-size"), ⟨litString "<0-4096>", size.text⟩]
  | maxPayloadSize size =>
      [.keyword (litString "max-payload-size"), ⟨litString "<0-4096>", size.text⟩]

def line (t : Setting) : List Byte := [space].intercalate (t.pieces.map Piece.typed)

/-- The numbers are in the ranges of the command. -/
def InRange : Setting → Prop
  | busNumber bus dev => bus.value ≤ 65535 ∧ dev.value ≤ 65535
  | pciTag tag => tag.value ≤ 255
  | txportid port => port.value ≤ 128
  | udpPort _ port => port.value ≤ 65535
  | memoryAddr _ => True
  | payloadSize size | maxPayloadSize size => size.value ≤ 4096

instance : DecidablePred InRange
  | busNumber bus dev => inferInstanceAs (Decidable (bus.value ≤ 65535 ∧ dev.value ≤ 65535))
  | pciTag tag => inferInstanceAs (Decidable (tag.value ≤ 255))
  | txportid port => inferInstanceAs (Decidable (port.value ≤ 128))
  | udpPort _ port => inferInstanceAs (Decidable (port.value ≤ 65535))
  | memoryAddr _ => inferInstanceAs (Decidable True)
  | payloadSize size | maxPayloadSize size => inferInstanceAs (Decidable (size.value ≤ 4096))

/-- What a setting means. An address that does not fit is the last one. -/
def apply (t : Setting) (s : NettlpSettings) : NettlpSettings :=
  if t.InRange then
    match t with
    | busNumber bus dev =>
        { s with
          busNumber := .ofNat 16 bus.value
          devNumber := .ofNat 16 dev.value
          requester := BitVec.ofNat 16 bus.value <<< 8 ||| BitVec.ofNat 16 dev.value }
    | pciTag tag => { s with pciTag := .ofNat 8 tag.value }
    | txportid port => { s with txPortid := port.value }
    | udpPort true port => { s with srcPort := .ofNat 16 port.value }
    | udpPort false port => { s with dstPort := .ofNat 16 port.value }
    | memoryAddr addr => { s with memoryAddr := .ofNat 64 (min addr.value (2 ^ 64 - 1)) }
    | payloadSize size => { s with payloadSize := size.value }
    | maxPayloadSize size => { s with maxPayloadSize := size.value }
  else s

end Setting

/-! ## What is taken -/

theorem takes_word (libc : Libc) (word : List Byte) :
    isCommandMatchVariable libc (litString "<WORD>") word = true := by
  have spec : wordSpec (litString "<WORD>") = true := by decide
  simp [isCommandMatchVariable, spec]

theorem upTo_65535 : UpTo (litString "<0-65535>") 65535 := by constructor <;> decide +kernel

theorem upTo_255 : UpTo (litString "<0-255>") 255 := by constructor <;> decide +kernel

theorem upTo_128 : UpTo (litString "<0-128>") 128 := by constructor <;> decide +kernel

theorem upTo_4096 : UpTo (litString "<0-4096>") 4096 := by constructor <;> decide +kernel

namespace Setting

/-- All is taken if the numbers are in range. -/
theorem takes_iff (t : Setting) (libc : Libc) :
    (∀ piece ∈ t.pieces, piece.Takes libc) ↔ t.InRange := by
  have set : (Piece.keyword (litString "set")).Takes libc := .keyword (by decide)
  have nettlp : (Piece.keyword (litString "nettlp")).Takes libc := .keyword (by decide)
  cases t with
  | busNumber bus dev =>
      have busWord : (Piece.keyword (litString "bus-number")).Takes libc := .keyword (by decide)
      have devWord : (Piece.keyword (litString "device-number")).Takes libc := .keyword (by decide)
      simp [pieces, InRange, set, nettlp, busWord, devWord, upTo_65535.takes_iff]
  | pciTag tag =>
      have word : (Piece.keyword (litString "pci-tag")).Takes libc := .keyword (by decide)
      simp [pieces, InRange, set, nettlp, word, upTo_255.takes_iff]
  | txportid port =>
      have word : (Piece.keyword (litString "tx-portid")).Takes libc := .keyword (by decide)
      simp [pieces, InRange, set, nettlp, word, upTo_128.takes_iff]
  | udpPort source port =>
      have word : (Piece.keyword (litString "udp")).Takes libc := .keyword (by decide)
      have field : (Piece.keyword
          (if source then litString "src-port" else litString "dst-port")).Takes libc :=
        .keyword (by cases source <;> decide)
      simp [pieces, InRange, set, nettlp, word, field, upTo_65535.takes_iff]
  | memoryAddr addr =>
      have word : (Piece.keyword (litString "memory-address")).Takes libc := .keyword (by decide)
      have any : Piece.Takes libc ⟨litString "<WORD>", addr.text⟩ := fun _ => takes_word libc _
      simp [pieces, InRange, set, nettlp, word, any]
  | payloadSize size =>
      have word : (Piece.keyword (litString "payload-size")).Takes libc := .keyword (by decide)
      simp [pieces, InRange, set, nettlp, word, upTo_4096.takes_iff]
  | maxPayloadSize size =>
      have word : (Piece.keyword (litString "max-payload-size")).Takes libc := .keyword (by decide)
      simp [pieces, InRange, set, nettlp, word, upTo_4096.takes_iff]

/-- The lines are filled commands. -/
theorem fills (t : Setting) : ∀ piece ∈ t.pieces, piece.Fills := by
  have set : (Piece.keyword (litString "set")).Fills := .keyword (by decide)
  have nettlp : (Piece.keyword (litString "nettlp")).Fills := .keyword (by decide)
  rw [pieces.eq_def, List.forall_mem_cons, List.forall_mem_cons]
  refine ⟨set, nettlp, ?_⟩
  cases t with
  | busNumber bus dev =>
      simp only [List.forall_mem_cons]
      exact ⟨.keyword (by decide), bus.fills (by decide), .keyword (by decide),
        dev.fills (by decide), fun _ none_ => absurd none_ List.not_mem_nil⟩
  | udpPort source port =>
      simp only [List.forall_mem_cons]
      exact ⟨.keyword (by decide), .keyword (by cases source <;> decide), port.fills (by decide),
        fun _ none_ => absurd none_ List.not_mem_nil⟩
  | pciTag n | txportid n | memoryAddr n | payloadSize n | maxPayloadSize n =>
      simp only [List.forall_mem_cons]
      exact ⟨.keyword (by decide), n.fills (by decide),
        fun _ none_ => absurd none_ List.not_mem_nil⟩

theorem typable (t : Setting) : ∀ piece ∈ t.pieces, ∀ b ∈ piece.typed, Typable b := by
  rw [pieces.eq_def, List.forall_mem_cons, List.forall_mem_cons]
  refine ⟨by decide +kernel, by decide +kernel, ?_⟩
  cases t with
  | busNumber bus dev =>
      simp only [List.forall_mem_cons]
      exact ⟨by decide +kernel, bus.typable, by decide +kernel, dev.typable,
        fun _ none_ => absurd none_ List.not_mem_nil⟩
  | udpPort source port =>
      simp only [List.forall_mem_cons]
      exact ⟨by decide +kernel, by cases source <;> decide +kernel, port.typable,
        fun _ none_ => absurd none_ List.not_mem_nil⟩
  | pciTag n | txportid n | memoryAddr n | payloadSize n | maxPayloadSize n =>
      simp only [List.forall_mem_cons]
      exact ⟨by decide +kernel, n.typable, fun _ none_ => absurd none_ List.not_mem_nil⟩

def source : Setting → Bool
  | udpPort source _ => source
  | _ => true

theorem map_spec (t : Setting) : t.pieces.map Piece.spec = t.set.path t.source := by
  cases t <;> rfl

end Setting

/-- What is typed is no end of a line. -/
theorem plain_of_typable : ∀ b : Byte, Typable b → endsLine b = false ∧ inScript b := by
  decide +kernel

/-! ## The command tree -/

theorem mem_all (set : NettlpSet) : set ∈ NettlpSet.all := by
  cases set <;> decide

/-- No command goes on where these commands take a number. -/
def LeavesSettings {φ : Type} (others : List (CommandHeader φ)) : Prop :=
  ∀ spec ∈ others, ∀ full ∈ specPaths spec.cmdstr, ∀ set ∈ NettlpSet.all, ∀ source : Bool,
    ∀ k < (set.path source).length, isSlot ((set.path source).getD k []) = true →
      ¬(set.path source).take k <+: full

instance {φ : Type} (others : List (CommandHeader φ)) : Decidable (LeavesSettings others) :=
  inferInstanceAs (Decidable (∀ spec ∈ others, ∀ full ∈ specPaths spec.cmdstr,
    ∀ set ∈ NettlpSet.all, ∀ source : Bool, ∀ k < (set.path source).length,
      isSlot ((set.path source).getD k []) = true → ¬(set.path source).take k <+: full))

theorem path_mem_specPaths : ∀ set ∈ NettlpSet.all, ∀ source : Bool,
    set.path source ∈ specPaths set.cmdstr := by
  decide +kernel

theorem path_single : ∀ set ∈ NettlpSet.all, ∀ source : Bool, ∀ spec ∈ set.path source,
    ¬(lineSpec spec ∨ fileSpec spec) := by
  decide +kernel

/-- Where one of these commands takes a number, no other one of them goes on. -/
theorem path_alone : ∀ set ∈ NettlpSet.all, ∀ source : Bool, ∀ other ∈ NettlpSet.all,
    ∀ full ∈ specPaths other.cmdstr, ∀ k < (set.path source).length,
      isSlot ((set.path source).getD k []) = true → (set.path source).take k <+: full →
        k < full.length → full.getD k [] = (set.path source).getD k [] := by
  decide +kernel

section
variable {ψ : Type} {others : List (CommandHeader (NettlpSet ⊕ ψ))}

theorem fillable_path (leaves : LeavesSettings others) (set : NettlpSet) (source : Bool) :
    Fillable (ChildWord (nettlpSpecs ψ ++ others)) [] (set.path source) where
  known := by
    intro done spec onWay
    have mem : (⟨set.cmdstr, set.helpstr, .inl set⟩ : CommandHeader (NettlpSet ⊕ ψ)) ∈
        nettlpSpecs ψ ++ others :=
      List.mem_append_left _ (List.mem_map.mpr ⟨set, mem_all set, rfl⟩)
    exact ⟨_, mem, _, path_mem_specPaths set (mem_all set) source, onWay⟩
  single := path_single set (mem_all set) source
  alone := by
    intro done spec onWay slot other there
    obtain ⟨header, mem, full, inside, here⟩ := there
    obtain ⟨rest, path⟩ := onWay
    have length : done.length < (set.path source).length := by
      rw [← path]
      simp
    have first : (set.path source).take done.length = done := by
      rw [← path, List.append_assoc, List.take_left]
    have spec_ : (set.path source).getD done.length [] = spec := by
      rw [← path]
      simp
    have upTo : (set.path source).take done.length <+: full := by
      rw [first]
      exact (List.prefix_append done [other]).trans here
    rw [← spec_] at slot
    rcases List.mem_append.mp mem with own | apart
    · obtain ⟨set', -, rfl⟩ := List.mem_map.mp own
      obtain ⟨more, rfl⟩ := here
      have same := path_alone set (mem_all set) source set' (mem_all set') _ inside done.length
        length slot upTo (by simp)
      rw [← spec_, ← same]
      simp
    · exact absurd upTo
        (leaves header apart full inside set (mem_all set) source done.length length slot)

/-- Each of them takes a number. -/
theorem path_slot : ∀ set ∈ NettlpSet.all, ∀ source : Bool,
    ∃ k < (set.path source).length, isSlot ((set.path source).getD k []) = true := by
  decide +kernel

theorem eq_of_path_mem : ∀ set ∈ NettlpSet.all, ∀ source : Bool, ∀ other ∈ NettlpSet.all,
    set.path source ∈ specPaths other.cmdstr → other = set := by
  decide +kernel

/-- Whatever else is installed, and in whatever order, only the command itself has its words. -/
theorem installedFunc_path (leaves : LeavesSettings others)
    {order : List (CommandHeader (NettlpSet ⊕ ψ))} (perm : order.Perm (nettlpSpecs ψ ++ others))
    (set : NettlpSet) (source : Bool) :
    installedFunc order (set.path source) = some (.inl set) := by
  have own : ∀ header ∈ order.reverse, (specPaths header.cmdstr).contains (set.path source) →
      header = ⟨set.cmdstr, set.helpstr, .inl set⟩ := by
    intro header mem has
    have inside := List.contains_iff_mem.mp has
    rcases List.mem_append.mp (perm.mem_iff.mp (List.mem_reverse.mp mem)) with mine | other
    · obtain ⟨set', -, rfl⟩ := List.mem_map.mp mine
      rw [eq_of_path_mem set (mem_all set) source set' (mem_all set') inside]
    · obtain ⟨k, below, slot⟩ := path_slot set (mem_all set) source
      exact absurd (List.take_prefix k _)
        (leaves header other _ inside set (mem_all set) source k below slot)
  have there : (⟨set.cmdstr, set.helpstr, .inl set⟩ : CommandHeader (NettlpSet ⊕ ψ)) ∈
      order.reverse := by
    refine List.mem_reverse.mpr (perm.mem_iff.mpr (List.mem_append_left _ ?_))
    exact List.mem_map.mpr ⟨set, mem_all set, rfl⟩
  rw [installedFunc, specFunc]
  cases found : order.reverse.find? fun spec => (specPaths spec.cmdstr).contains (set.path source) with
  | none =>
      have has := List.contains_iff_mem.mpr (path_mem_specPaths set (mem_all set) source)
      exact absurd has (List.find?_eq_none.mp found _ there)
  | some header =>
      have has := List.find?_some found
      rw [own header (List.mem_of_find?_eq_some found) has]
      rfl

end

/-! ## What is set -/

theorem Numeral.strtol_small {m : Numeral} {bound : Nat} (inRange : m.value ≤ bound)
    (small : bound < 2 ^ 63) : (strtol 0 m.text).1 = .ofNat 64 m.value := by
  rw [m.strtol_text, if_neg (by omega)]

theorem Numeral.strtoul_small {m : Numeral} {bound : Nat} (inRange : m.value ≤ bound)
    (small : bound < 2 ^ 63) : (strtoul 0 m.text).1 = .ofNat 64 m.value := by
  rw [m.strtoul_text, if_neg (by omega)]

theorem intOfLong_ofNat {n bound : Nat} (inRange : n ≤ bound) (small : bound < 2 ^ 31) :
    intOfLong (.ofNat 64 n) = n := by
  have value : (BitVec.ofNat 32 n).toNat = n := by
    rw [BitVec.toNat_ofNat, Nat.mod_eq_of_lt (by omega)]
  rw [intOfLong, BitVec.setWidth_ofNat_of_le (by omega),
    BitVec.toInt_eq_toNat_of_lt (by omega), value]

/-- A command that is called does what the setting means. -/
theorem Setting.run {t : Setting} (inRange : t.InRange) (s : NettlpSettings) :
    t.set.run ((t.pieces.map Piece.typed).map some) s = some (t.apply s) := by
  rw [apply.eq_def, if_pos inRange]
  cases t with
  | busNumber bus dev =>
      have called : (busNumber bus dev).set.run
          (((busNumber bus dev).pieces.map Piece.typed).map some) s =
        some { s with
          busNumber := (strtol 0 bus.text).1.setWidth 16
          devNumber := (strtol 0 dev.text).1.setWidth 16
          requester := (strtol 0 bus.text).1.setWidth 16 <<< 8 |||
            (strtol 0 dev.text).1.setWidth 16 } := rfl
      rw [called, Numeral.strtol_small inRange.1 (by decide),
        Numeral.strtol_small inRange.2 (by decide), BitVec.setWidth_ofNat_of_le (by decide),
        BitVec.setWidth_ofNat_of_le (by decide)]
  | pciTag tag =>
      have called : (pciTag tag).set.run (((pciTag tag).pieces.map Piece.typed).map some) s =
        some { s with pciTag := (strtol 0 tag.text).1.setWidth 8 } := rfl
      rw [called, Numeral.strtol_small inRange (by decide),
        BitVec.setWidth_ofNat_of_le (by decide)]
  | txportid port =>
      have called : (txportid port).set.run (((txportid port).pieces.map Piece.typed).map some) s =
        some { s with txPortid := (intOfLong (strtol 0 port.text).1).toNat } := rfl
      rw [called, Numeral.strtol_small inRange (by decide),
        intOfLong_ofNat inRange (by decide), Int.toNat_natCast]
  | udpPort source port =>
      have stored : (strtol 0 port.text).1.setWidth 16 = .ofNat 16 port.value := by
        rw [Numeral.strtol_small inRange (by decide), BitVec.setWidth_ofNat_of_le (by decide)]
      cases source with
      | true =>
          have called : (udpPort true port).set.run
              (((udpPort true port).pieces.map Piece.typed).map some) s =
            some { s with srcPort := (strtol 0 port.text).1.setWidth 16 } := rfl
          rw [called, stored]
      | false =>
          have called : (udpPort false port).set.run
              (((udpPort false port).pieces.map Piece.typed).map some) s =
            some { s with dstPort := (strtol 0 port.text).1.setWidth 16 } := rfl
          rw [called, stored]
  | memoryAddr addr =>
      have called : (memoryAddr addr).set.run
          (((memoryAddr addr).pieces.map Piece.typed).map some) s =
        some { s with memoryAddr := (strtoul 0 addr.text).1 } := rfl
      have stored : (strtoul 0 addr.text).1 = .ofNat 64 (min addr.value (2 ^ 64 - 1)) := by
        rw [← addr.strtoul_text_toNat, BitVec.ofNat_toNat, BitVec.setWidth_eq]
      rw [called, stored]
  | payloadSize size =>
      have called : (payloadSize size).set.run
          (((payloadSize size).pieces.map Piece.typed).map some) s =
        some { s with payloadSize := (intOfLong (strtoul 0 size.text).1).toNat } := rfl
      rw [called, Numeral.strtoul_small inRange (by decide),
        intOfLong_ofNat inRange (by decide), Int.toNat_natCast]
  | maxPayloadSize size =>
      have called : (maxPayloadSize size).set.run
          (((maxPayloadSize size).pieces.map Piece.typed).map some) s =
        some { s with maxPayloadSize := intOfLong (strtoul 0 size.text).1 } := rfl
      rw [called, Numeral.strtoul_small inRange (by decide), intOfLong_ofNat inRange (by decide)]

/-! ## A line of a script -/

namespace Setting

variable {ψ : Type} {others : List (CommandHeader (NettlpSet ⊕ ψ))}

theorem pieces_ne_nil (t : Setting) : t.pieces ≠ [] := by
  cases t <;> exact List.cons_ne_nil _ _

theorem fillable (t : Setting) (leaves : LeavesSettings others) :
    Fillable (ChildWord (nettlpSpecs ψ ++ others)) [] (t.pieces.map Piece.spec) := by
  rw [t.map_spec]
  exact fillable_path leaves t.set t.source

theorem words_typed (t : Setting) :
    ∀ word ∈ t.pieces.map Piece.typed, word ≠ [] ∧ space ∉ word := by
  have alone : LeavesSettings ([] : List (CommandHeader (NettlpSet ⊕ Empty))) :=
    fun _ none_ => absurd none_ List.not_mem_nil
  intro word mem
  obtain ⟨piece, there, rfl⟩ := List.mem_map.mp mem
  exact (t.fillable alone).typed (fun _ _ => ChildWord.word) t.fills piece there

theorem line_ne_nil (t : Setting) : t.line ≠ [] := by
  intro empty
  have words := strsepTokens_intercalate (fun word mem => (t.words_typed word mem).2)
    (by simpa using t.pieces_ne_nil)
  rw [← line.eq_def, empty] at words
  exact (t.words_typed [] (words ▸ List.mem_singleton.mpr rfl)).1 rfl

theorem mem_line {t : Setting} {b : Byte} (mem : b ∈ t.line) : b = space ∨ Typable b := by
  rcases mem_intercalate mem with between | ⟨word, inside, mem⟩
  · exact .inl between
  · obtain ⟨piece, there, rfl⟩ := List.mem_map.mp inside
    exact .inr (t.typable piece there b mem)

/-- The line has no comment, and single spaces. -/
theorem joined_line (t : Setting) : Words.joined space (withoutComment t.line) = t.line := by
  have whole : withoutComment t.line = t.line := by
    refine List.takeWhile_eq_self_iff.mpr fun b mem => decide_eq_true ?_
    rcases mem_line mem with rfl | typed
    · decide
    · exact not_or.mpr ⟨typed.2.2.2.1, typed.2.2.2.2.1⟩
  rw [whole]
  exact Words.joined_intercalate (by simpa using t.pieces_ne_nil) t.words_typed

theorem opened (t : Setting) : ∀ b ∈ t.line, endsLine b = false := by
  intro b mem
  rcases mem_line mem with rfl | typed
  · decide
  · exact (plain_of_typable b typed).1

theorem inScript (t : Setting) : ∀ b ∈ t.line, inScript b := by
  intro b mem
  rcases mem_line mem with rfl | typed
  · decide
  · exact (plain_of_typable b typed).2

/-- The line sets what it says. -/
theorem runLine (libc : Libc) {place : Placement (NettlpSet ⊕ ψ)}
    {order : List (CommandHeader (NettlpSet ⊕ ψ))}
    (leaves : LeavesSettings others) (perm : order.Perm (nettlpSpecs ψ ++ others))
    {cmdset : CommandSet (NettlpSet ⊕ ψ)}
    (ran : installRun place (order.map .install2) = .ok cmdset)
    (printed : NettlpSet → List (Option (List Byte)) → NettlpSettings → List Byte)
    (other : ψ → List (Option (List Byte)) → NettlpSettings → NettlpSettings × Effect)
    (t : Setting) (s : NettlpSettings) :
    ((nettlpSystem libc cmdset printed other).runLine t.line s).1 = t.apply s ∧
      ∀ effect ∈ ((nettlpSystem libc cmdset printed other).runLine t.line s).2, effect.Stays := by
  have fillable := t.fillable leaves
  rw [← childWord_perm perm] at fillable
  obtain ⟨taken, refused⟩ := commandExecute_pieces libc ran t.pieces_ne_nil fillable t.fills
  rw [t.takes_iff, t.map_spec, installedFunc_path leaves perm, ← line.eq_def] at taken
  rw [t.takes_iff, ← line.eq_def] at refused
  rw [CommandSystem.runLine, t.joined_line, if_neg t.line_ne_nil, CommandSystem.execute]
  by_cases inRange : t.InRange
  · simp only [nettlpSystem, taken inRange, Option.map_some, Setting.run inRange]
    refine ⟨rfl, fun effect done => ?_⟩
    cases done
    exact ⟨rfl, by simp⟩
  · simp only [nettlpSystem, refused inRange]
    rw [apply.eq_def, if_neg inRange]
    exact ⟨rfl, by simp⟩

end Setting

/-! ## The script -/

/-- A script of settings, however `read` cuts it into pieces and whatever else is installed, in
    whatever order and however often, that does not go on where a number is taken: each setting
    with its numbers in range is made, and the others are not. -/
theorem nettlpSettings_script {ψ : Type} (libc : Libc) (place : Placement (NettlpSet ⊕ ψ))
    {others order : List (CommandHeader (NettlpSet ⊕ ψ))}
    (leaves : LeavesSettings others) (perm : order.Perm (nettlpSpecs ψ ++ others))
    {cmdset : CommandSet (NettlpSet ⊕ ψ)}
    (ran : installRun place (order.map .install2) = .ok cmdset)
    (printed : NettlpSet → List (Option (List Byte)) → NettlpSettings → List Byte)
    (other : ψ → List (Option (List Byte)) → NettlpSettings → NettlpSettings × Effect)
    (settings : List Setting) (reads : List (List (Byte × Answers)))
    (text : textOf reads = endedLines (settings.map Setting.line))
    (gives : ∀ keys ∈ reads, ∀ key ∈ keys, key.2.memory.Gives)
    (short : ∀ t ∈ settings, t.line.length + 2 ≤ 2 ^ 30) (s : NettlpSettings) :
    ∃ x, Session.startupLoop (nettlpSystem libc cmdset printed other) reads ⟨startupShell, false, s⟩ =
        .ok x ∧ x.shell.flagClose = true ∧ x.world = settings.foldl (fun s t => t.apply s) s := by
  have ran_ := Setting.runLine libc leaves perm ran printed other
  have split : (textOf reads).splitOnP endsLine = settings.map Setting.line ++ [[]] := by
    rw [text]
    refine splitOnP_endedLines fun line mem => ?_
    obtain ⟨t, -, rfl⟩ := List.mem_map.mp mem
    exact t.opened
  have lines : completeLines (textOf reads) = settings.map Setting.line := by
    rw [completeLines, split, List.dropLast_concat]
  have stays : ∀ (settings : List Setting) (s : NettlpSettings),
      (nettlpSystem libc cmdset printed other).Stays (settings.map Setting.line) s := by
    intro settings
    induction settings with
    | nil => exact fun _ => trivial
    | cons t settings ih => exact fun s => ⟨(ran_ t s).2, ih _⟩
  have start : Dialog.Reading (nettlpSystem libc cmdset printed other)
      ⟨.fresh startupShell.keymapNormal, false, s⟩ [] (textOf reads) := by
    refine .start ?_ ?_ ?_
    · intro b mem
      rw [text, endedLines] at mem
      obtain ⟨line, inside, mem⟩ := List.mem_flatten.mp mem
      simp only [List.map_map, List.mem_map] at inside
      obtain ⟨t, -, rfl⟩ := inside
      rcases List.mem_append.mp mem with typed | ends
      · exact t.inScript b typed
      · rw [List.mem_singleton.mp ends]
        decide
    · rw [split]
      intro line mem
      rcases List.mem_append.mp mem with mem | mem
      · obtain ⟨t, there, rfl⟩ := List.mem_map.mp mem
        exact short t there
      · rw [List.mem_singleton.mp mem]
        decide
    · rw [lines]
      exact stays settings s
  obtain ⟨x, run, closed, world, -⟩ :=
    start.startupLoop (x := ⟨startupShell, false, s⟩) ⟨startupShell_shows, rfl, rfl⟩ gives
  refine ⟨x, run, closed, ?_⟩
  rw [world, List.nil_append]
  change (nettlpSystem libc cmdset printed other).interpret (completeLines (textOf reads)) s = _
  rw [lines, CommandSystem.interpret, List.foldl_map]
  simp only [(ran_ _ _).1]

/-- `set_worker` and `start_stop_worker`, which have words in common. -/
def workerSpecs : List (CommandHeader (NettlpSet ⊕ Unit)) :=
  [⟨litString "(set|reset|start|restart) worker lcore <0-16> (|none|l2fwd|l3fwd|l3fwd-lpm|tap-handler|l2-repeater|nettlp-thread)",
      [], .inr ()⟩,
    ⟨litString "(start|stop|reset|restart) worker lcore (<0-16>|all)", [], .inr ()⟩]

/-- Some of the other commands of `nettlp_cmd_init`. -/
def otherNettlpSpecs : List (CommandHeader (NettlpSet ⊕ Unit)) :=
  [⟨litString "nettlp-send (dma-write|dma-read)", [], .inr ()⟩,
    ⟨litString "set nettlp payload-string <LINE>", [], .inr ()⟩,
    ⟨litString "set nettlp psmem-size (<WORD>|256M)", [], .inr ()⟩,
    ⟨litString "show nettlp psmem (|<WORD>)", [], .inr ()⟩]

/-- The commands for the workers are installed by the shell and once more by `sdplane_cmd_init`. -/
def otherStartupSpecs : List (CommandHeader (NettlpSet ⊕ Unit)) :=
  workerSpecs ++ workerSpecs ++ otherNettlpSpecs

/-- A tag out of range between two settings. -/
theorem nettlpSettings_script_requester :
    ∃ cmdset x, installRun quietPlacement ((nettlpSpecs Unit ++ otherStartupSpecs).map .install2) =
        .ok cmdset ∧
      Session.startupLoop (nettlpSystem quietLibc cmdset (fun _ _ _ => [])
          fun _ _ s => (s, ⟨[], false, false, none⟩))
        [(litString "set nettlp bus-number 0x12 device-nu").map typedKey,
          (litString "mber 010\nset nettlp pci-tag 256\nset nettlp mem").map typedKey,
          (litString "ory-address 0xfedc000\n").map typedKey]
        ⟨startupShell, false, ⟨.initial, 0, 0, 0⟩⟩ = .ok x ∧
      x.world.requester = 0x1208 ∧ x.world.pciTag = 0 ∧ x.world.memoryAddr = 0xfedc000 := by
  have distinct : ∀ call ∈ (nettlpSpecs Unit ++ otherStartupSpecs).map InstallCall.install2,
      call.Distinct := by
    intro call mem
    obtain ⟨spec, there, rfl⟩ := List.mem_map.mp mem
    have each : ∀ spec ∈ nettlpSpecs Unit ++ otherStartupSpecs, (specPaths spec.cmdstr).Nodup := by
      decide +kernel
    exact each spec there
  obtain ⟨cmdset, _, ran, -⟩ := installRun_ok quietPlacement distinct
  obtain ⟨x, run, -, world⟩ := nettlpSettings_script quietLibc quietPlacement
    (by decide +kernel) (.refl _) ran (fun _ _ _ => [])
    (fun _ _ s => (s, ⟨[], false, false, none⟩))
    [.busNumber ⟨.hexadecimal, litString "12", by decide, by decide, by decide⟩
        ⟨.octal, litString "10", by decide, by decide, by decide⟩,
      .pciTag ⟨.decimal, litString "256", by decide, by decide, by decide⟩,
      .memoryAddr ⟨.hexadecimal, litString "fedc000", by decide, by decide, by decide⟩]
    [(litString "set nettlp bus-number 0x12 device-nu").map typedKey,
      (litString "mber 010\nset nettlp pci-tag 256\nset nettlp mem").map typedKey,
      (litString "ory-address 0xfedc000\n").map typedKey]
    (by decide +kernel)
    (by
      intro keys mem key typed
      have given : key.2 = (typedKey 0).2 := by
        simp only [List.mem_cons, List.not_mem_nil, or_false] at mem
        rcases mem with rfl | rfl | rfl <;> obtain ⟨b, -, rfl⟩ := List.mem_map.mp typed <;> rfl
      rw [given]
      exact ⟨fun _ => rfl, rfl, rfl⟩)
    (by decide +kernel) ⟨.initial, 0, 0, 0⟩
  refine ⟨cmdset, x, ran, run, ?_⟩
  rw [world]
  decide +kernel

end Sdplane
