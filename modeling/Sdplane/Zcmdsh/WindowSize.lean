import Sdplane.Zcmdsh.Telnet
import Sdplane.Zcmdsh.TelnetState

/-!
# The size of the window

The subnegotiation that carries the size of a window. The payload is kept in signed characters,
so a low octet from 128 on takes 256 from the size; a 255 ends the payload, and behind it there
are not enough octets for another one.
-/

namespace Sdplane

/-- The high and the low octet of a size. -/
def hiByte (n : BitVec 16) : Byte := (n >>> 8).setWidth 8

def loByte (n : BitVec 16) : Byte := n.setWidth 8

/-- Width and height as a payload. -/
def nawsPayload (width height : BitVec 16) : List Byte :=
  [teloptNaws, hiByte width, loByte width, hiByte height, loByte height]

/-- The command that tells the size. -/
def nawsCommand (width height : BitVec 16) : TelnetCommand :=
  .subnegotiation (nawsPayload width height)

/-- No octet is 255, and the low octets are not negative as signed characters. -/
def Undistorted (width height : BitVec 16) : Prop :=
  hiByte width ≠ telnetIac ∧ loByte width < 128 ∧ hiByte height ≠ telnetIac ∧ loByte height < 128

instance (width height : BitVec 16) : Decidable (Undistorted width height) :=
  inferInstanceAs (Decidable (_ ∧ _))

/-- A shell in its normal keymap, prepared for telnet. -/
structure Shell.Listening (s : Shell) : Prop where
  ok : s.Ok (fun _ => True) s.keymapNormal
  keymap : s.keymap = .normal
  prepared : s.TelnetPrepared

/-- The keys are taken, the window has this size, and neither the line nor the keymap changed. -/
def Shell.Resizes (s : Shell) (width height : BitVec 16) (keys : Keys) : Prop :=
  ∃ t, typeKeys keys s = .ok t ∧ t.wsCol = width ∧ t.wsRow = height ∧ t.keymap = .normal ∧
    t.view = s.view

theorem windowSize_eq_iff (n : BitVec 16) :
    windowSize (hiByte n) (loByte n) = n ↔ loByte n < 128 := by
  have octets : n.toNat = 256 * (hiByte n).toNat + (loByte n).toNat := by
    simp [hiByte, loByte, Nat.shiftRight_eq_div_pow]
    omega
  have sign : (loByte n).msb = decide (128 ≤ (loByte n).toNat) := BitVec.msb_eq_decide _
  generalize hiByte n = hi at *
  generalize loByte n = lo at *
  have low : lo < 128 ↔ lo.toNat < 128 := Iff.rfl
  have sum : (windowSize hi lo).toNat =
      (256 * hi.toNat + lo.toNat + if 128 ≤ lo.toNat then 65280 else 0) % 65536 := by
    rw [windowSize, BitVec.toNat_add, BitVec.toNat_shiftLeft, BitVec.toNat_signExtend,
      BitVec.toNat_signExtend, sign, Nat.shiftLeft_eq]
    simp only [BitVec.toNat_setWidth, decide_eq_true_eq]
    split <;> split <;> omega
  rw [← BitVec.toNat_inj, sum, octets, low]
  split <;> omega

/-! ## The automaton over the command -/

namespace TelnetState

variable {p : TelnetState}

theorem step_some {ch : Byte} {f : Keyfunc} (bound : p.keyfunc ch = some f) :
    p.step ch = f.telnetStep { p with inputch := ch } := by
  have here : TelnetState.keyfunc { p with inputch := ch } ch = some f := bound
  rw [step, here]

theorem step_none {ch : Byte} (free : p.keyfunc ch = none) : p.step ch = { p with inputch := ch } := by
  have here : TelnetState.keyfunc { p with inputch := ch } ch = none := free
  rw [step, here]

theorem step_iac (iac : p.keymapNormal telnetIac = some .iacStart)
    (keymap : p.keymap = .normal ∨ p.keymap = .subnego) :
    p.step telnetIac = { p with inputch := telnetIac, keymap := .iac1 } := by
  have bound : p.keyfunc telnetIac = some .iacStart := by
    rcases keymap with keymap | keymap
    · rwa [keyfunc, keymap]
    · rw [keyfunc, keymap]
      rfl
  rw [step_some bound]
  rfl

/-- An octet behind IAC. -/
theorem step_command (keymap : p.keymap = .iac1) (ch : Byte) :
    p.step ch = (keyFuncIac1 ch).telnetStep { p with inputch := ch } := by
  apply step_some
  rw [keyfunc, keymap]

theorem step_payload {b : Byte} (keymap : p.keymap = .subnego) (data : b ≠ telnetIac)
    (room : p.subnegoBuf.length < sizeofSubnegoBuf) :
    p.step b = { p with inputch := b, subnegoBuf := p.subnegoBuf ++ [b] } := by
  have bound : p.keyfunc b = some .subnego := by
    rw [keyfunc, keymap]
    exact congrArg some (if_neg data)
  rw [step_some bound]
  exact if_pos room

/-- A payload without 255 is collected. -/
theorem foldl_payload {bs : List Byte} (keymap : p.keymap = .subnego) (data : telnetIac ∉ bs)
    (room : p.subnegoBuf.length + bs.length ≤ sizeofSubnegoBuf) :
    ∃ ch, bs.foldl step p = { p with inputch := ch, subnegoBuf := p.subnegoBuf ++ bs } := by
  induction bs generalizing p with
  | nil => exact ⟨p.inputch, by rw [List.append_nil]; rfl⟩
  | cons b bs ih =>
      rw [List.mem_cons, not_or] at data
      rw [List.length_cons] at room
      obtain ⟨ch, collected⟩ := ih (p := { p with inputch := b, subnegoBuf := p.subnegoBuf ++ [b] })
        keymap data.2 (by simp; omega)
      refine ⟨ch, ?_⟩
      rw [List.foldl_cons, step_payload keymap (Ne.symm data.1) (by omega), collected,
        List.append_assoc, List.singleton_append]

/-- A payload begins. -/
theorem foldl_start {bs : List Byte} (iac : p.keymapNormal telnetIac = some .iacStart)
    (keymap : p.keymap = .normal) (data : telnetIac ∉ bs) (room : bs.length ≤ sizeofSubnegoBuf) :
    ∃ ch, (telnetIac :: telnetSb :: bs).foldl step p =
      { p with inputch := ch, keymap := .subnego, subnegoBuf := bs } := by
  rw [List.foldl_cons, List.foldl_cons, step_iac iac (.inl keymap), step_command rfl]
  obtain ⟨ch, collected⟩ := foldl_payload (p := { p with
    inputch := telnetSb, keymap := .subnego, subnegoBuf := [] }) rfl data (by simpa using room)
  exact ⟨ch, collected⟩

/-! ## Behind a 255 -/

/-- The size of the window is this, and the octets that are left do not make another payload of
    five. -/
structure Starved (size : BitVec 16 × BitVec 16) (left : Nat) (p : TelnetState) : Prop where
  size : (p.wsCol, p.wsRow) = size
  iac : p.keymapNormal telnetIac = some .iacStart
  plain : ∀ ch f, ch ≠ telnetIac → p.keymapNormal ch = some f → f.telnet = false
  few : left ≤ 8
  command : p.keymap = .iac1 → left ≤ 7
  payload : p.keymap = .subnego → p.subnegoBuf.length + left ≤ 6
  short : p.keymap = .subnego ∨ p.subnegoBuf.length ≤ 4 ∨ left = 0

/-- What is not telnet's leaves everything but the keymap. -/
theorem telnetStep_plain {f : Keyfunc} (plain : f.telnet = false) (p : TelnetState) :
    ∃ k, f.telnetStep p = { p with keymap := k } ∧ (k = p.keymap ∨ k.typing = true) := by
  cases f with
  | vtyNormal | vtyMoveWordBackward | vtyMoveWordForward | vtyDeleteWordBackward
  | vtyEscape1 | vtyEscape2 => exact ⟨_, rfl, .inr rfl⟩
  | iacStart | telnetOpt | telnetCmd | subnego | sbStart | sbEnd => cases plain
  | _ => exact ⟨p.keymap, rfl, .inl rfl⟩

theorem resize_of_short (short : p.subnegoBuf.length ≤ 4) : p.resize = p := by
  unfold resize
  split
  · rename_i five
    rw [five] at short
    exact absurd short (by simp)
  · rfl

namespace Starved

variable {size : BitVec 16 × BitVec 16} {left : Nat}

/-- Into a keymap in which the payload does not grow. -/
theorem leave (h : Starved size (left + 1) p) {k : Keymap} (short : p.subnegoBuf.length ≤ 4)
    (other : k ≠ .subnego) (ch : Byte) : Starved size left { p with inputch := ch, keymap := k } where
  size := h.size
  iac := h.iac
  plain := h.plain
  few := Nat.le_of_succ_le h.few
  command := fun _ => Nat.le_of_succ_le_succ h.few
  payload := fun same => absurd same other
  short := .inr (.inl short)

/-- A key. -/
theorem key (h : Starved size (left + 1) p) (typing : p.keymap.typing = true) {f : Keyfunc}
    (plain : f.telnet = false) (ch : Byte) :
    Starved size left (f.telnetStep { p with inputch := ch }) := by
  obtain ⟨k, stepped, kept⟩ := telnetStep_plain plain { p with inputch := ch }
  have short : p.subnegoBuf.length ≤ 4 := by
    rcases h.short with same | short | none
    · rw [same] at typing
      cases typing
    · exact short
    · cases none
  have other : k ≠ .subnego := by
    rintro rfl
    rcases kept with same | same
    · dsimp only at same
      rw [← same] at typing
      cases typing
    · cases same
  rw [stepped]
  exact h.leave short other ch

/-- An octet behind IAC. -/
theorem command_step (h : Starved size (left + 1) p) (keymap : p.keymap = .iac1)
    (short : p.subnegoBuf.length ≤ 4) (ch : Byte) : Starved size left (p.step ch) := by
  have command := h.command keymap
  rw [step_command keymap, keyFuncIac1]
  split
  · -- a payload that cannot be completed begins
    refine ⟨h.size, h.iac, h.plain, by omega, fun _ => by omega, ?_, .inl rfl⟩
    intro _
    change 0 + left ≤ 6
    omega
  · split
    · have same := resize_of_short (p := { p with inputch := ch, keymap := .normal }) short
      change Starved size left (resize { p with inputch := ch, keymap := .normal })
      rw [same]
      exact h.leave short (by decide) ch
    · split
      · exact h.leave short (by decide) ch
      · exact h.leave short (by decide) ch

/-- An octet in a payload. -/
theorem payload_step (h : Starved size (left + 1) p) (keymap : p.keymap = .subnego) (ch : Byte) :
    Starved size left (p.step ch) := by
  have payload := h.payload keymap
  by_cases iac : ch = telnetIac
  · rw [iac, step_iac h.iac (.inr keymap)]
    refine ⟨h.size, h.iac, h.plain, by omega, fun _ => by omega, ?_, ?_⟩
    · rintro ⟨⟩
    · right
      change p.subnegoBuf.length ≤ 4 ∨ left = 0
      omega
  · rw [step_payload keymap iac (by rw [sizeofSubnegoBuf]; omega)]
    refine ⟨h.size, h.iac, h.plain, by omega, fun _ => by omega, ?_, .inl keymap⟩
    intro _
    change (p.subnegoBuf ++ [ch]).length + left ≤ 6
    rw [List.length_append, List.length_singleton]
    omega

/-- An octet. -/
theorem step (h : Starved size (left + 1) p) (ch : Byte) : Starved size left (p.step ch) := by
  have short : p.keymap ≠ .subnego → p.subnegoBuf.length ≤ 4 := fun other =>
    (h.short.resolve_left other).resolve_right (Nat.succ_ne_zero left)
  cases keymap : p.keymap with
  | normal =>
      have here := short (by rw [keymap]; decide)
      have bound : p.keyfunc ch = p.keymapNormal ch := by rw [keyfunc, keymap]
      by_cases iac : ch = telnetIac
      · rw [iac, step_iac h.iac (.inl keymap)]
        exact h.leave here (by decide) telnetIac
      · cases key : p.keymapNormal ch with
        | none =>
            rw [step_none (bound.trans key)]
            exact h.leave here (by rw [keymap]; decide) ch
        | some f =>
            rw [step_some (bound.trans key)]
            exact h.key (by rw [keymap]; rfl) (h.plain ch f iac key) ch
  | escape1 =>
      have bound : p.keyfunc ch = some (keyFuncEscape1 ch) := by rw [keyfunc, keymap]
      rw [step_some bound]
      refine h.key (by rw [keymap]; rfl) ?_ ch
      unfold keyFuncEscape1
      repeat' split
      all_goals rfl
  | escape2 =>
      have bound : p.keyfunc ch = some .vtyNormal := by rw [keyfunc, keymap]
      rw [step_some bound]
      exact h.key (by rw [keymap]; rfl) rfl ch
  | iac1 => exact h.command_step keymap (short (by rw [keymap]; decide)) ch
  | iac2 =>
      have bound : p.keyfunc ch = some .telnetOpt := by rw [keyfunc, keymap]
      rw [step_some bound]
      exact h.leave (short (by rw [keymap]; decide)) (by decide) ch
  | subnego => exact h.payload_step keymap ch

/-- The size stays what it is. -/
theorem run {bs : List Byte} (h : Starved size bs.length p) :
    ((bs.foldl TelnetState.step p).wsCol, (bs.foldl TelnetState.step p).wsRow) = size := by
  induction bs generalizing p with
  | nil => exact h.size
  | cons b bs ih => exact ih (h.step b)

end Starved

theorem length_flatMap_telnetEscape (bs : List Byte) :
    (bs.flatMap telnetEscape).length ≤ 2 * bs.length := by
  induction bs with
  | nil => exact Nat.le_refl 0
  | cons b bs ih =>
      have twice : (telnetEscape b).length ≤ 2 := by
        unfold telnetEscape
        split <;> simp
      rw [List.flatMap_cons, List.length_append, List.length_cons]
      omega

/-- A payload of five octets with a 255 in it does not change the size. -/
theorem foldl_distorted {payload : List Byte} (iac : p.keymapNormal telnetIac = some .iacStart)
    (plain : ∀ ch f, ch ≠ telnetIac → p.keymapNormal ch = some f → f.telnet = false)
    (keymap : p.keymap = .normal) (five : payload.length ≤ 5) (first : payload.head? ≠ some telnetIac)
    (mem : telnetIac ∈ payload) :
    let q := (TelnetCommand.subnegotiation payload).encode.foldl step p
    (q.wsCol, q.wsRow) = (p.wsCol, p.wsRow) := by
  obtain ⟨before, behind, rfl, data⟩ := List.eq_append_cons_of_mem mem
  rw [List.length_append, List.length_cons] at five
  have some_before : 0 < before.length := by
    cases before with
    | nil => exact absurd rfl first
    | cons b before => exact Nat.succ_pos _
  have sent : (TelnetCommand.subnegotiation (before ++ telnetIac :: behind)).encode =
      (telnetIac :: telnetSb :: before) ++ ([telnetIac, telnetIac] ++
        (behind.flatMap telnetEscape ++ [telnetIac, telnetSe])) := by
    rw [TelnetCommand.encode, List.flatMap_append, List.flatMap_cons, flatMap_telnetEscape data,
      telnetEscape, if_pos rfl]
    simp
  obtain ⟨ch, collected⟩ := foldl_start iac keymap data (by rw [sizeofSubnegoBuf]; omega)
  have escaped := length_flatMap_telnetEscape behind
  have ended : [telnetIac, telnetIac].foldl step { p with
      inputch := ch, keymap := .subnego, subnegoBuf := before } =
      { p with inputch := telnetIac, keymap := .normal, subnegoBuf := before } := by
    have began := step_iac (p := { p with
      inputch := ch, keymap := .subnego, subnegoBuf := before }) iac (.inr rfl)
    rw [List.foldl_cons, List.foldl_cons, List.foldl_nil, began, step_command rfl]
    rfl
  dsimp only
  rw [sent, List.foldl_append, List.foldl_append, collected, ended]
  apply Starved.run
  refine ⟨rfl, iac, plain, ?_, ?_, ?_, .inr (.inl ?_)⟩
  · rw [List.length_append]
    change (behind.flatMap telnetEscape).length + 2 ≤ 8
    omega
  · rintro ⟨⟩
  · rintro ⟨⟩
  · change before.length ≤ 4
    omega

/-- A payload of five octets without 255 is the size. -/
theorem foldl_naws {b1 b2 b3 b4 : Byte} (iac : p.keymapNormal telnetIac = some .iacStart)
    (keymap : p.keymap = .normal) (data : telnetIac ∉ [teloptNaws, b1, b2, b3, b4]) :
    let q := (TelnetCommand.subnegotiation [teloptNaws, b1, b2, b3, b4]).encode.foldl step p
    (q.wsCol, q.wsRow) = (windowSize b1 b2, windowSize b3 b4) := by
  obtain ⟨ch, collected⟩ := foldl_start iac keymap data (by simp [sizeofSubnegoBuf])
  have sent : (TelnetCommand.subnegotiation [teloptNaws, b1, b2, b3, b4]).encode =
      (telnetIac :: telnetSb :: [teloptNaws, b1, b2, b3, b4]) ++ [telnetIac, telnetSe] := by
    rw [TelnetCommand.encode, flatMap_telnetEscape data]
    rfl
  have began := step_iac (p := { p with
    inputch := ch, keymap := .subnego, subnegoBuf := [teloptNaws, b1, b2, b3, b4] }) iac (.inr rfl)
  dsimp only
  rw [sent, List.foldl_append, collected, List.foldl_cons, List.foldl_cons, List.foldl_nil, began,
    step_command rfl]
  rfl

end TelnetState

/-! ## The shell -/

/-- An ESC that is pending does not matter to the octet that begins a command. -/
theorem shellInput_escaped {normal : Byte → Option Keyfunc} {s : Shell} {ch : Byte}
    (ok : s.Ok (fun _ => True) normal) (bound : s.keyfunc ch = some .iacStart) (a : Answers) :
    shellInput a ch s = shellInput a ch { s with flagEscape := false } := by
  obtain ⟨l, holds⟩ := ok.line
  have debugged : ∃ u : Shell, u.keyfunc ch = some .iacStart ∧ ∀ flag,
      debugInput a { s with inputch := ch, flagEscape := flag } =
        .ok { u with flagEscape := flag } := by
    by_cases debug : s.debugShell = true
    · refine ⟨Shell.written (Shell.refreshSent (Shell.fprintf (s.nl ++ a.debugText ++ s.nl)
        { s with inputch := ch }) a l) (Shell.fprintf (s.nl ++ a.debugText ++ s.nl)
          { s with inputch := ch }), bound, fun flag => (if_pos debug).trans ?_⟩
      exact Shell.shellRefresh_spec (s := Shell.fprintf (s.nl ++ a.debugText ++ s.nl)
        { s with inputch := ch, flagEscape := flag }) holds a
    · exact ⟨{ s with inputch := ch }, bound, fun flag => if_neg debug⟩
  obtain ⟨u, bound', debugged⟩ := debugged
  have typed : ∀ flag, shellInput a ch { s with flagEscape := flag } =
      finishInput a false (vtyShellKeyfuncIacStart { u with flagEscape := false }) := by
    intro flag
    have called : callKeyfunc a ch { u with flagEscape := flag } =
        .ok (vtyShellKeyfuncIacStart { u with flagEscape := flag }) := by
      have same : Shell.keyfunc { u with flagEscape := flag } ch = some .iacStart := bound'
      rw [callKeyfunc, same]
      rfl
    rw [shellInput, debugged flag]
    change callKeyfunc a ch { u with flagEscape := flag } >>= finishInput a flag = _
    rw [called]
    cases flag <;> rfl
  exact (typed s.flagEscape).trans (typed false).symm

namespace Shell

variable {s : Shell} {width height : BitVec 16} {keys : Keys}

theorem Listening.size (h : s.Listening) {t : Shell}
    (sent : keys.map Prod.fst = (nawsCommand width height).encode) (typed : typeKeys keys s = .ok t) :
    (t.wsCol, t.wsRow) = if telnetIac ∈ nawsPayload width height then (s.wsCol, s.wsRow)
      else (windowSize (hiByte width) (loByte width), windowSize (hiByte height) (loByte height)) := by
  have left := typeKeys_leaves keys s t typed
  have size : (t.wsCol, t.wsRow) = (t.telnetState.wsCol, t.telnetState.wsRow) := rfl
  have first : (nawsPayload width height).head? ≠ some telnetIac := by
    simp [nawsPayload, teloptNaws, telnetIac]
  rw [size, left, sent]
  split
  · exact TelnetState.foldl_distorted (p := s.telnetState) h.prepared.iac h.prepared.plain h.keymap
      (Nat.le_refl 5) first (by assumption)
  · exact TelnetState.foldl_naws (p := s.telnetState) h.prepared.iac h.keymap (by assumption)

theorem Listening.feeds (h : s.Listening)
    (sent : keys.map Prod.fst = (nawsCommand width height).encode)
    (data : telnetIac ∉ nawsPayload width height) :
    ∃ t, typeKeys keys s = .ok t ∧ t.keymap = .normal ∧ t.view = s.view := by
  have ok : Shell.Ok (fun _ => True) s.keymapNormal { s with flagEscape := false } := { h.ok with }
  have fits : subnegoLength (nawsPayload width height) ≤ 63 := by
    have each : ∀ b, hexLength b ≤ 5 := by
      intro b
      unfold hexLength
      split
      · decide
      · split <;> decide
    have first := each teloptNaws
    have width_hi := each (hiByte width)
    have width_lo := each (loByte width)
    have height_hi := each (hiByte height)
    have height_lo := each (loByte height)
    have digit : (nawsPayload width height).length < 10 := by simp [nawsPayload]
    rw [subnegoLength, Nat.toDigits_of_lt_base digit, nawsPayload]
    simp only [List.map_cons, List.map_nil, List.sum_cons, List.sum_nil, List.length_singleton]
    omega
  have harmless : (nawsCommand width height).Harmless :=
    ⟨nawsPayload width height, 0, (List.append_nil _).symm, data, fits⟩
  obtain ⟨buf, t, typed, ht⟩ := feeds_command ok rfl h.prepared.iac h.keymap sent harmless
  have same : typeKeys keys s = typeKeys keys { s with flagEscape := false } := by
    obtain ⟨⟨_, a⟩, keys, rfl, rfl, -⟩ := List.map_eq_cons_iff.mp sent
    have bound : s.keyfunc telnetIac = some .iacStart := by
      rw [keyfunc, h.keymap]
      exact h.prepared.iac
    rw [typeKeys, typeKeys, List.foldlM_cons, List.foldlM_cons]
    dsimp only
    rw [shellInput_escaped h.ok bound a]
  refine ⟨t, same.trans typed, ht.keymap_eq, ?_⟩
  obtain ⟨out, buffered, ch, row, col, cmd, opt, rfl⟩ := ht
  rw [view, view, h.keymap]

end Shell

theorem undistorted_iff (width height : BitVec 16) : Undistorted width height ↔
    telnetIac ∉ nawsPayload width height ∧ loByte width < 128 ∧ loByte height < 128 := by
  have low : ∀ b : Byte, b < 128 → telnetIac ≠ b := by
    rintro _ small rfl
    exact absurd small (by decide)
  have other : telnetIac ≠ teloptNaws := by decide
  simp only [Undistorted, nawsPayload, List.mem_cons, List.not_mem_nil, or_false, not_or]
  constructor
  · rintro ⟨hw, lw, hh, lh⟩
    exact ⟨⟨other, hw.symm, low _ lw, hh.symm, low _ lh⟩, lw, lh⟩
  · rintro ⟨⟨-, hw, -, hh, -⟩, lw, lh⟩
    exact ⟨Ne.symm hw, lw, Ne.symm hh, lh⟩

theorem Undistorted.resizes {s : Shell} {width height : BitVec 16} {keys : Keys}
    (h : Undistorted width height) (listening : s.Listening)
    (sent : keys.map Prod.fst = (nawsCommand width height).encode) :
    s.Resizes width height keys := by
  obtain ⟨data, lw, lh⟩ := (undistorted_iff width height).mp h
  obtain ⟨t, typed, keymap, view⟩ := listening.feeds sent data
  have size := listening.size sent typed
  rw [if_neg data, (windowSize_eq_iff width).mpr lw, (windowSize_eq_iff height).mpr lh,
    Prod.mk.injEq] at size
  exact ⟨t, typed, size.1, size.2, keymap, view⟩

theorem Shell.Resizes.undistorted {s : Shell} {width height : BitVec 16} {keys : Keys}
    (h : s.Resizes width height keys) (listening : s.Listening)
    (sent : keys.map Prod.fst = (nawsCommand width height).encode)
    (other : (s.wsCol, s.wsRow) ≠ (width, height)) : Undistorted width height := by
  obtain ⟨t, typed, col, row, -⟩ := h
  have size := listening.size sent typed
  rw [col, row] at size
  rw [undistorted_iff]
  split at size
  · exact absurd size.symm other
  · rw [Prod.mk.injEq] at size
    exact ⟨by assumption, (windowSize_eq_iff width).mp size.1.symm,
      (windowSize_eq_iff height).mp size.2.symm⟩

/-- Octets to which nothing is answered. -/
def silently (octets : List Byte) : Keys := octets.map (·, Answers.silent)

@[simp] theorem map_fst_silently (octets : List Byte) : (silently octets).map Prod.fst = octets := by
  rw [silently, List.map_map]
  exact List.map_id octets

theorem telnetShell_listening : telnetShell.Listening where
  ok := { freshShell_ok telnetBinds 1 with keymap := trivial }
  keymap := rfl
  prepared := telnetShell_prepared

/-- Whatever the shell is doing, telling the size of the window sets it, unless an octet is 255
    or a low octet is 128 or more; then a shell whose window has another size does not get it. -/
theorem window_size_iff (width height : BitVec 16) :
    ((∀ (s : Shell) (keys : Keys), s.Listening →
        keys.map Prod.fst = (nawsCommand width height).encode → s.Resizes width height keys) ↔
      Undistorted width height) ∧
    ∀ (s : Shell) (keys : Keys), s.Listening →
      keys.map Prod.fst = (nawsCommand width height).encode →
        (s.wsCol, s.wsRow) ≠ (width, height) →
          (s.Resizes width height keys ↔ Undistorted width height) := by
  constructor
  · constructor
    · intro all
      by_cases origin : (telnetShell.wsCol, telnetShell.wsRow) = (width, height)
      · obtain ⟨rfl, rfl⟩ := Prod.mk.inj origin
        decide
      · have sent := map_fst_silently (nawsCommand width height).encode
        exact (all _ _ telnetShell_listening sent).undistorted telnetShell_listening sent origin
    · intro h s keys listening sent
      exact h.resizes listening sent
  · intro s keys listening sent other
    exact ⟨fun h => h.undistorted listening sent other, fun h => h.resizes listening sent⟩

/-- 80 columns and 24 rows. -/
theorem window_size_iff_terminal :
    telnetShell.Resizes 80 24 (silently (nawsCommand 80 24).encode) :=
  (window_size_iff 80 24).1.mpr (by decide) _ _ telnetShell_listening (map_fst_silently _)

/-- 200 columns are taken for 65480. -/
theorem window_size_not : ¬ ∀ (width height : BitVec 16) (s : Shell) (keys : Keys), s.Listening →
    keys.map Prod.fst = (nawsCommand width height).encode → s.Resizes width height keys := by
  intro all
  have sent := map_fst_silently (nawsCommand 200 50).encode
  have resized := all 200 50 telnetShell _ telnetShell_listening sent
  exact absurd (resized.undistorted telnetShell_listening sent (by decide)) (by decide)

end Sdplane
