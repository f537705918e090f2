import Sdplane.Misc.Strtoul
import Sdplane.Nettlp.PsmemRead

/-!
# Allocation of the pseudo memory

The commands `set nettlp psmem-address` and `set nettlp psmem-size` (`nettlp.c:1071-1195`),
which release, resize or allocate the pseudo memory. What an allocator answers is an input
of the model; that a failed `realloc` leaves the old block behind without a pointer to it is
not seen here.
-/

namespace Sdplane

open ByteMem

/-- `psmem_addr`, `psmem_size` and `psmem_memory`, the last as the size of the block it
    points to, or nothing where it is NULL. -/
structure PsmemAlloc where
  addr : BitVec 64
  size : BitVec 32
  memory : Option Nat

/-- The initializers (`nettlp.c:93-96`). -/
def PsmemAlloc.initial : PsmemAlloc := ⟨0, 8 * 1024, none⟩

/-- `malloc (n)` and `realloc (ptr, n)`: a block of `n` bytes, or NULL. -/
def allocate (granted : Bool) (n : BitVec 32) : Option Nat :=
  if granted then some n.toNat else none

/-- The guard both commands start with: there is a block and the new address or the new
    size is 0, which indicates release. -/
def PsmemAlloc.releases (s : PsmemAlloc) (addr : BitVec 64) (size : BitVec 32) : Bool :=
  s.memory.isSome && (addr == 0 || size == 0)

/-- `set_nettlp_psmem_addr` on the word `argv[3]`. -/
def setNettlpPsmemAddr (s : PsmemAlloc) (word : List Byte) (granted : Bool) : PsmemAlloc :=
  let (newAddr, endptr) := strtoul 0 word
  if endptr ≠ [] then s
  else if s.releases newAddr s.size then { s with memory := none }
  else if s.memory.isSome ∧ s.size ≠ 0 then
    -- realloc
    match allocate granted s.size with
    | none => { s with memory := none }
    | some n => { s with memory := some n, addr := newAddr }
  else
    -- malloc
    match allocate granted s.size with
    | none => { s with memory := none }
    | some n => { s with memory := some n, addr := newAddr }

/-- The keyword `256M`. -/
def keyword256M : List Byte := [0x32, 0x35, 0x36, 0x4D]

/-- The size a word stands for, in a `uint32_t`. -/
def psmemSizeArg (word : List Byte) : Option (BitVec 32) :=
  if word = keyword256M then some (256 * 1024 * 1024)
  else
    let (newSize, endptr) := strtoul 0 word
    if endptr ≠ [] then none else some (newSize.setWidth 32)

/-- `set_nettlp_psmem_size` on the word `argv[3]`. -/
def setNettlpPsmemSize (s : PsmemAlloc) (word : List Byte) (granted : Bool) : PsmemAlloc :=
  match psmemSizeArg word with
  | none => s
  | some newSize =>
      if s.releases s.addr newSize then { s with memory := none, size := newSize }
      else if s.memory.isSome ∧ newSize ≠ 0 then
        -- realloc
        match allocate granted newSize with
        | none => { s with memory := none }
        | some n => { s with memory := some n, size := newSize }
      else
        -- malloc
        match allocate granted newSize with
        | none => { s with memory := none }
        | some n => { s with memory := some n, size := newSize }

/-- One of the two commands, with the answer of the allocator. -/
inductive PsmemCommand where
  | address (word : List Byte) (granted : Bool)
  | size (word : List Byte) (granted : Bool)

def PsmemAlloc.step (s : PsmemAlloc) : PsmemCommand → PsmemAlloc
  | .address word granted => setNettlpPsmemAddr s word granted
  | .size word granted => setNettlpPsmemSize s word granted

/-- The state after a sequence of commands. -/
def PsmemAlloc.after (cmds : List PsmemCommand) : PsmemAlloc :=
  cmds.foldl PsmemAlloc.step .initial

/-- What the packet handlers see, with the bytes of the block. -/
def PsmemAlloc.view (s : PsmemAlloc) (bytes : ByteMem) : Psmem := ⟨s.addr, s.size, bytes⟩

/-! ## What a command does to the block -/

namespace PsmemAlloc

/-- Whether the command leaves a block behind: it was no release and the allocator gave
    one, or the argument is not a number and there was one before. -/
def allocates (s : PsmemAlloc) : PsmemCommand → Bool
  | .address word granted =>
      let (newAddr, endptr) := strtoul 0 word
      if endptr ≠ [] then s.memory.isSome
      else granted && !s.releases newAddr s.size
  | .size word granted =>
      match psmemSizeArg word with
      | none => s.memory.isSome
      | some newSize => granted && !s.releases s.addr newSize

/-- A command does nothing, or leaves a block of `psmem_size` bytes, or none. -/
theorem step_cases (s : PsmemAlloc) (cmd : PsmemCommand) :
    s.allocates cmd = s.memory.isSome ∧ s.step cmd = s ∨
    s.allocates cmd = true ∧ (s.step cmd).memory = some (s.step cmd).size.toNat ∨
    s.allocates cmd = false ∧ (s.step cmd).memory = none := by
  cases cmd with
  | address word granted =>
      simp only [step, setNettlpPsmemAddr, allocates]
      by_cases bad : (strtoul 0 word).2 ≠ []
      · simp [bad]
      · cases release : s.releases (strtoul 0 word).1 s.size with
        | true => simp [bad]
        | false => cases granted <;> simp [bad, allocate]
  | size word granted =>
      simp only [step, setNettlpPsmemSize, allocates]
      generalize psmemSizeArg word = arg
      cases arg with
      | none => simp
      | some newSize =>
          cases release : s.releases s.addr newSize with
          | true => simp [release]
          | false => cases granted <;> simp [release, allocate]

theorem isSome_step (s : PsmemAlloc) (cmd : PsmemCommand) :
    (s.step cmd).memory.isSome = s.allocates cmd := by
  rcases s.step_cases cmd with ⟨kept, same⟩ | ⟨yes, block⟩ | ⟨no, null⟩
  · rw [same, kept]
  · rw [block, yes]
    rfl
  · rw [null, no]
    rfl

/-- The block has the size the handlers take it to have. -/
def Sized (s : PsmemAlloc) : Prop := ∀ n, s.memory = some n → n = s.size.toNat

theorem Sized.step {s : PsmemAlloc} (sized : s.Sized) (cmd : PsmemCommand) :
    (s.step cmd).Sized := by
  intro n block
  rcases s.step_cases cmd with ⟨-, same⟩ | ⟨-, block'⟩ | ⟨-, null⟩
  · rw [same] at block ⊢
    exact sized n block
  · rw [block'] at block
    exact (Option.some.inj block).symm
  · rw [null] at block
    cases block

theorem after_append (cmds : List PsmemCommand) (cmd : PsmemCommand) :
    after (cmds ++ [cmd]) = (after cmds).step cmd := by
  simp [after]

theorem after_sized (cmds : List PsmemCommand) : (after cmds).Sized := by
  induction cmds using List.reverseRecOn with
  | nil =>
      intro n block
      cases block
  | append_singleton cmds cmd ih =>
      rw [after_append]
      exact ih.step cmd

/-! ## What the packet handlers let through -/

/-- Between commands the block has the size the handlers take it to have, and while there
    is none no request for a byte or more passes their range test. -/
structure Safe (s : PsmemAlloc) : Prop where
  sized : s.Sized
  mrd : s.memory = none → ∀ bytes b mh, tlpIsMrd (hdrFmtType b mh) = true →
    0 < tlpMrDataLength b mh → mrdOutOfRange (s.view bytes) b mh = true
  mwr : s.memory = none → ∀ bytes b mh, tlpIsMwr (hdrFmtType b mh) = true →
    0 < tlpMrDataLength b mh → nettlpPsmemMwr (s.view bytes) b mh = none

/-- A 4DW write of the last byte of the address space. -/
def mwrLastByte : ByteMem := ByteMem.ofList
  [0x60, 0, 0, 1, 0, 0, 0, 0x08, 0xFF, 0xFF, 0xFF, 0xFF, 0xFF, 0xFF, 0xFF, 0xFC, 0, 0, 0, 0x55]

/-- Its end wraps to 0, so that every pseudo memory lets it through. -/
theorem mwrLastByte_passes (p : Psmem) : nettlpPsmemMwr p mwrLastByte 0 ≠ none := by
  have addr : (tlpMrAddr mwrLastByte 0).toNat = 2 ^ 64 - 1 := by decide
  have len : (BitVec.ofInt 64 (tlpMrDataLength mwrLastByte 0)).toNat = 1 := by decide
  have passes : psmemOutOfRange p (tlpMrAddr mwrLastByte 0)
      (BitVec.ofInt 64 (tlpMrDataLength mwrLastByte 0)) = false := by
    rw [psmemOutOfRange_eq_false_iff, addr, len]
    have bound := p.addr.isLt
    omega
  simp [nettlpPsmemMwr, passes]

/-- So nothing but a block makes a state safe. -/
theorem safe_iff_of_sized {s : PsmemAlloc} (sized : s.Sized) :
    s.Safe ↔ s.memory.isSome = true := by
  constructor
  · intro safe
    by_contra missing
    have rejected := safe.mwr (by simpa using missing) (fun _ => 0) mwrLastByte 0 (by decide)
      (by decide)
    exact mwrLastByte_passes _ rejected
  · intro block
    refine ⟨sized, ?_, ?_⟩
    all_goals
      intro null
      simp [null] at block

/-- In every run the block has the right size; the state is not safe before the first
    command, and after one exactly when that command leaves a block behind. -/
theorem after_safe_iff (cmds : List PsmemCommand) :
    (after cmds).Sized ∧ ¬ (after []).Safe ∧
      ∀ cmd, (after (cmds ++ [cmd])).Safe ↔ (after cmds).allocates cmd = true := by
  refine ⟨after_sized cmds, ?_, ?_⟩
  · rw [safe_iff_of_sized (after_sized [])]
    decide
  · intro cmd
    rw [safe_iff_of_sized (after_sized _), after_append, isSome_step]

/-- A 3DW read of the first double word. -/
def mrdAtZero : ByteMem := ByteMem.ofList [0x00, 0, 0, 1, 0, 0, 0, 0x0F, 0, 0, 0, 0]

/-- The program starts with a size but without a block, so a read at address 0 passes. -/
theorem after_not_safe : ¬ ∀ cmds, (after cmds).Safe := by
  intro safe
  have rejected := (safe []).mrd rfl (fun _ => 0) mrdAtZero 0 (by decide) (by decide)
  revert rejected
  decide

end PsmemAlloc

end Sdplane
