import Sdplane.Misc.Snprintf
import Sdplane.Zcmdsh.Telnet
import Sdplane.Zcmdsh.Vector

/-!
# Texts put together with `snprintf`

The description of a subnegotiation (`shell_telnet.c:371-398`) and a line of the configuration
(`command.c:930-952`). What is left of the buffer is counted down by the length of each text,
below 0 once a text was truncated, and passed on as a `size_t`.
-/

namespace Sdplane

/-! ## The description of a subnegotiation -/

/-- The text of `" %#hhx"`. -/
def hexText (b : Byte) : List Byte :=
  litString " " ++ (if b = 0 then [] else litString "0x") ++
    (Nat.toDigits 16 b.toNat).map charByte

/-- The texts that are put into `subnego_str`. -/
def subnegoTexts (buf : List Byte) : List (List Byte) :=
  (litString "len: " ++ (Nat.toDigits 10 buf.length).map charByte ++ litString " [") ::
    buf.map hexText ++ [litString "]"]

/-- `sizeof (subnego_str)`. -/
def sizeofSubnegoStr : Nat := 64

/-- The calls of `snprintf`; the size is `end - p`, where `end` is the last octet. -/
def subnegoCalls (buf : List Byte) : List Snprintf :=
  Snprintf.calls (fun p => BitVec.ofInt 64 (63 - p)) 0 (subnegoTexts buf)

theorem length_hexText (b : Byte) : (hexText b).length = hexLength b := by
  have digits : (Nat.toDigits 16 b.toNat).length = if b.toNat < 16 then 1 else 2 := by
    split
    · rw [Nat.toDigits_of_lt_base (by assumption)]
      rfl
    · have quotient : b.toNat / 16 < 16 := by omega
      rw [Nat.toDigits_of_base_le (by decide) (by omega), Nat.toDigits_of_lt_base quotient]
      rfl
  have low : b.toNat < 16 ↔ b < 0x10 := Iff.rfl
  rw [hexText, hexLength, List.length_append, List.length_append, List.length_map, digits]
  simp only [low]
  by_cases zero : b = 0
  · rw [zero]
    rfl
  · rw [if_neg zero, if_neg zero]
    split <;> rfl

/-- All texts but the last one. -/
theorem subnegoTexts_length {buf : List Byte} :
    ((litString "len: " ++ (Nat.toDigits 10 buf.length).map charByte ++ litString " [") ::
      buf.map hexText).flatten.length = subnegoLength buf := by
  have each : (buf.map hexText).map List.length = buf.map hexLength := by
    rw [List.map_map]
    exact List.map_congr_left fun b _ => length_hexText b
  rw [List.flatten_cons, List.length_append, List.length_flatten, each, List.length_append,
    List.length_append, List.length_map, subnegoLength]
  simp [litString]
  omega

theorem subnegoTexts_short {buf : List Byte} (received : buf.length ≤ sizeofSubnegoBuf) :
    ∀ text ∈ (litString "len: " ++ (Nat.toDigits 10 buf.length).map charByte ++ litString " [") ::
      buf.map hexText, text.length < 2 ^ 31 := by
  rw [List.forall_mem_cons]
  constructor
  · have digits : (Nat.toDigits 10 buf.length).length ≤ 3 := by
      rw [Nat.length_toDigits_le_iff (by decide) (by decide)]
      rw [sizeofSubnegoBuf] at received
      omega
    simp [litString]
    omega
  · intro text mem
    obtain ⟨b, -, rfl⟩ := List.mem_map.mp mem
    rw [length_hexText, hexLength]
    split
    · decide
    · split <;> decide

/-- Up to the last octet, the size is what is left but for that octet. -/
theorem subnego_left {q : Int} (low : 0 ≤ q) (high : q < sizeofSubnegoStr) :
    (BitVec.ofInt 64 (63 - q)).toNat = 63 - q.toNat := by
  rw [sizeofSubnegoStr] at high
  rw [BitVec.toNat_ofInt]
  omega

theorem subnegoCalls_inside_iff {buf : List Byte} (received : buf.length ≤ sizeofSubnegoBuf) :
    (∀ call ∈ subnegoCalls buf, call.Inside sizeofSubnegoStr) ↔ subnegoLength buf ≤ 63 := by
  have honest : ∀ q : Int, 0 ≤ q → q < sizeofSubnegoStr →
      q + (BitVec.ofInt 64 (63 - q)).toNat ≤ sizeofSubnegoStr := by
    intro q low high
    rw [subnego_left low high, sizeofSubnegoStr]
    rw [sizeofSubnegoStr] at high
    omega
  rw [subnegoCalls, subnegoTexts,
    Snprintf.calls_inside_iff_of_short honest (subnegoTexts_short received), subnegoTexts_length,
    sizeofSubnegoStr]
  exact Nat.lt_succ_iff

theorem foldlM_snprintfSubnego_overrun (buf : List Byte) (p : Nat)
    (long : 63 < p + (buf.map hexLength).sum) :
    (buf.foldlM (fun p b => snprintfSubnego p (hexLength b)) p >>= (snprintfSubnego · 1)) =
      .error .overrun := by
  induction buf generalizing p with
  | nil => exact if_pos long
  | cons b buf ih =>
      rw [List.map_cons, List.sum_cons, ← Nat.add_assoc] at long
      rw [List.foldlM_cons, snprintfSubnego]
      split
      · rfl
      · exact ih _ long

/-- The shell describes the subnegotiation exactly if no call leaves the buffer. -/
theorem describeSubnego_eq {buf : List Byte} (received : buf.length ≤ sizeofSubnegoBuf) :
    describeSubnego buf =
      if ∀ call ∈ subnegoCalls buf, call.Inside sizeofSubnegoStr then
        .ok (subnegoLength buf + 1)
      else .error .overrun := by
  simp only [subnegoCalls_inside_iff received]
  split
  · exact describeSubnego_fits (by assumption)
  · have first : snprintfSubnego 0 (7 + (Nat.toDigits 10 buf.length).length) =
        .ok (7 + (Nat.toDigits 10 buf.length).length) := by
      rw [snprintfSubnego, if_neg (Nat.not_lt_zero 63), Nat.zero_add]
    rw [describeSubnego, first]
    apply foldlM_snprintfSubnego_overrun
    rw [subnegoLength] at *
    omega

/-! ## A line of the configuration -/

/-- The texts that are put into `config_line`. -/
def configTexts (argv0 : CString) (args : List CString) : List (List Byte) :=
  (litString "  " ++ argv0.octets) :: args.map fun arg => litString " " ++ arg.octets

/-- `sizeof (config_line)`. -/
def sizeofConfigLine : Nat := 128

/-- The calls of `snprintf`; `left` is an `int`. -/
def configCalls (argv0 : CString) (args : List CString) : List Snprintf :=
  Snprintf.calls (fun p => (BitVec.ofInt 32 (sizeofConfigLine - p)).signExtend 64) 0
    (configTexts argv0 args)

/-- `command_config_add`; `strdup` gives the pointer to a copy. -/
def commandConfigAdd {α : Type} [DecidableEq α] (realloc : Nat → Bool)
    (strdup : CString → Option α) (config : CVector α) (argv0 : CString) (args : List CString) :
    Except Stop (CVector α) :=
  match Snprintf.run sizeofConfigLine (configCalls argv0 args) (fun _ => 0) with
  | some line => config.add realloc (strdup (line.cString sizeofConfigLine 0))
  | none => .error .overrun

/-- As long as the place is in the buffer, the `size_t` is what is left. -/
theorem config_left {q : Int} (low : 0 ≤ q) (high : q < sizeofConfigLine) :
    ((BitVec.ofInt 32 (sizeofConfigLine - q)).signExtend 64).toNat =
      sizeofConfigLine - q.toNat := by
  obtain ⟨k, rfl⟩ := Int.eq_ofNat_of_zero_le low
  exact Snprintf.toNat_roomLeft (by decide) (Int.ofNat_lt.mp high)

theorem configCalls_inside_iff (argv0 : CString) (args : List CString) :
    (∀ call ∈ configCalls argv0 args, call.Inside sizeofConfigLine) ↔
      ∀ k ≤ args.length,
        0 ≤ Snprintf.advance ((configTexts argv0 args).take k) ∧
          Snprintf.advance ((configTexts argv0 args).take k) < sizeofConfigLine := by
  rw [configCalls, Snprintf.calls_inside_iff]
  · simp only [configTexts, List.length_cons, List.length_map, Nat.lt_succ_iff, zero_add]
  · intro q low high
    rw [config_left low high]
    omega

theorem configTexts_noNul (argv0 : CString) (args : List CString) :
    0 ∉ (configTexts argv0 args).flatten := by
  intro nul
  obtain ⟨text, mem, nul⟩ := List.mem_flatten.mp nul
  rcases List.mem_cons.mp mem with rfl | mem
  · rcases List.mem_append.mp nul with nul | nul
    · exact absurd nul (by decide)
    · exact argv0.noNul nul
  · obtain ⟨arg, -, rfl⟩ := List.mem_map.mp mem
    rcases List.mem_append.mp nul with nul | nul
    · exact absurd nul (by decide)
    · exact arg.noNul nul

/-- The line that is added, where it is put together in the buffer: a longer text is cut. -/
theorem commandConfigAdd_eq {α : Type} [DecidableEq α] (realloc : Nat → Bool)
    (strdup : CString → Option α) (config : CVector α) {argv0 : CString} {args : List CString}
    (short : ∀ text ∈ configTexts argv0 args, text.length < 2 ^ 31) :
    commandConfigAdd realloc strdup config argv0 args =
      if ∀ call ∈ configCalls argv0 args, call.Inside sizeofConfigLine then
        config.add realloc (strdup (.ofOctets
          ((configTexts argv0 args).flatten.take (sizeofConfigLine - 1))))
      else .error .overrun := by
  have ran := Snprintf.run_isSome_iff (n := sizeofConfigLine) (configCalls argv0 args) fun _ => 0
  rw [commandConfigAdd]
  by_cases inside : ∀ call ∈ configCalls argv0 args, call.Inside sizeofConfigLine
  · obtain ⟨line, done⟩ := Option.isSome_iff_exists.mp (ran.mpr inside)
    have noNul := configTexts_noNul argv0 args
    have octets : (line.cString sizeofConfigLine 0).octets =
        (configTexts argv0 args).flatten.take (sizeofConfigLine - 1) := by
      refine Snprintf.run_text [] ?_ short noNul (by decide) rfl (fun _ => rfl) done
      intro q high
      exact config_left (Int.natCast_nonneg q) (Int.ofNat_lt.mpr high)
    rw [done, if_pos inside, ← octets]
    exact congrArg (config.add realloc <| strdup ·) (CString.ofOctets_octets _).symm
  · rw [if_neg inside, Option.not_isSome_iff_eq_none.mp (mt ran.mp inside)]

/-! ## The buffers -/

/-- The calls stay in the buffer of the subnegotiation exactly if its description is of at most
    63 octets without the last bracket; those in the buffer of the configuration exactly if the
    texts in front of each of them are of less than 128 octets, where a text of 2^31 octets or
    more counts as -1. -/
theorem formatters_inside_iff (buf : List Byte) (received : buf.length ≤ sizeofSubnegoBuf)
    (argv0 : CString) (args : List CString) :
    ((∀ call ∈ subnegoCalls buf, call.Inside sizeofSubnegoStr) ↔ subnegoLength buf ≤ 63) ∧
      ((∀ call ∈ configCalls argv0 args, call.Inside sizeofConfigLine) ↔
        ∀ k ≤ args.length,
          0 ≤ Snprintf.advance ((configTexts argv0 args).take k) ∧
            Snprintf.advance ((configTexts argv0 args).take k) < sizeofConfigLine) :=
  ⟨subnegoCalls_inside_iff received, configCalls_inside_iff argv0 args⟩

/-- 126 times the letter a. -/
def longWord : CString where
  octets := List.replicate 126 (charByte 'a')
  noNul := fun nul => absurd (List.eq_of_mem_replicate nul) (by decide)

/-- The size of a window fits, and a single word. -/
theorem formatters_inside_iff_window :
    (∀ call ∈ subnegoCalls [teloptNaws, 0, 80, 0, 24], call.Inside sizeofSubnegoStr) ∧
      ∀ call ∈ configCalls longWord [], call.Inside sizeofConfigLine := by
  obtain ⟨subnego, config⟩ :=
    formatters_inside_iff [teloptNaws, 0, 80, 0, 24] (by decide) longWord []
  refine ⟨subnego.mpr (by decide), config.mpr fun k first => ?_⟩
  rw [Nat.le_zero.mp first]
  decide

/-- Eleven octets do not fit, nor does a second argument behind one of 126 octets. -/
theorem formatters_inside_not :
    (¬ ∀ buf : List Byte, buf.length ≤ sizeofSubnegoBuf →
      ∀ call ∈ subnegoCalls buf, call.Inside sizeofSubnegoStr) ∧
    ¬ ∀ (argv0 : CString) (args : List CString),
      ∀ call ∈ configCalls argv0 args, call.Inside sizeofConfigLine := by
  constructor
  · intro all
    have received : (List.replicate 11 space).length ≤ sizeofSubnegoBuf := by decide
    have fits := (subnegoCalls_inside_iff received).mp (all _ received)
    exact absurd fits (by decide)
  · intro all
    have second := ((configCalls_inside_iff longWord [longWord]).mp (all _ _) 1 (Nat.le_refl 1)).2
    have start : Snprintf.advance ((configTexts longWord [longWord]).take 1) = 128 := by
      change Snprintf.ret (litString "  " ++ longWord.octets) + 0 = 128
      rw [Snprintf.ret, if_pos] <;> simp [litString, longWord]
    rw [start] at second
    exact absurd second (by decide)

end Sdplane
