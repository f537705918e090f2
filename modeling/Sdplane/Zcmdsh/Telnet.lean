import Sdplane.Zcmdsh.Alike
import Sdplane.Zcmdsh.LineEditor
import Mathlib.Algebra.BigOperators.Group.List.Basic

/-!
# Telnet commands among the keys

A stream of keys with telnet commands between them, fed to a shell that
`shell_telnet_keyfunc_init` prepared, against the keys alone. An octet 255 in the payload of a
subnegotiation ends it for the parser, which types what is left of it.
-/

namespace Sdplane

/-- The commands of RFC 854 and 855. -/
inductive TelnetCommand where
  | twoByte (cmd : Byte) (valid : telnetSe < cmd ∧ cmd < telnetSb)
  | option (cmd opt : Byte) (valid : telnetWill ≤ cmd ∧ cmd ≤ telnetDont)
  | subnegotiation (payload : List Byte)

/-- An octet of a payload; 255 is doubled. -/
def telnetEscape (b : Byte) : List Byte := if b = telnetIac then [telnetIac, telnetIac] else [b]

def TelnetCommand.encode : TelnetCommand → List Byte
  | .twoByte cmd _ => [telnetIac, cmd]
  | .option cmd opt _ => [telnetIac, cmd, opt]
  | .subnegotiation payload =>
      [telnetIac, telnetSb] ++ payload.flatMap telnetEscape ++ [telnetIac, telnetSe]

/-- What is fed to `shell_input`, each octet with what is answered to it. -/
abbrev Keys := List (Byte × Answers)

def typeKeys (keys : Keys) (s : Shell) : Except Stop Shell :=
  keys.foldlM (fun s key => shellInput key.2 key.1 s) s

/-- A stream is made of keys, none of them 255, and of telnet commands between them. -/
inductive Interleaving : Keys → Keys → Prop where
  | nil : Interleaving [] []
  | key {ch : Byte} {a : Answers} {stream keys : Keys} : ch ≠ telnetIac →
      Interleaving stream keys → Interleaving ((ch, a) :: stream) ((ch, a) :: keys)
  | command {c : TelnetCommand} {octets stream keys : Keys} : octets.map Prod.fst = c.encode →
      Interleaving stream keys → Interleaving (octets ++ stream) keys

/-- What is looked at: the command line, its end, the cursor and the keymap. -/
def Shell.view (s : Shell) : ByteMem × Int × Int × Keymap :=
  (s.commandLine, s.lineEnd, s.cursor, s.keymap)

/-- `shell_telnet_keyfunc_init` installed its key, and no other key is telnet's. -/
structure Shell.TelnetPrepared (s : Shell) : Prop where
  iac : s.keymapNormal telnetIac = some .iacStart
  plain : ∀ ch f, ch ≠ telnetIac → s.keymapNormal ch = some f → f.telnet = false

/-- The length of the description of a subnegotiation, which `snprintf` puts into 64 octets. -/
def subnegoLength (buf : List Byte) : Nat :=
  7 + (Nat.toDigits 10 buf.length).length + (buf.map hexLength).sum

/-- Nothing but 255 follows a 255 in a payload, and its description fits. -/
def TelnetCommand.Harmless : TelnetCommand → Prop
  | .subnegotiation payload => ∃ buf n, payload = buf ++ List.replicate n telnetIac ∧
      telnetIac ∉ buf ∧ subnegoLength buf ≤ 63
  | _ => True

/-- The telnet commands are harmless, and none comes while an ESC is pending. The state is that
    of the keys alone. -/
inductive HarmlessStream : Shell → Keys → Keys → Prop where
  | nil (s : Shell) : HarmlessStream s [] []
  | key {s : Shell} {ch : Byte} {a : Answers} {stream keys : Keys} : ch ≠ telnetIac →
      Interleaving stream keys →
      (∀ s', shellInput a ch s = .ok s' → HarmlessStream s' stream keys) →
        HarmlessStream s ((ch, a) :: stream) ((ch, a) :: keys)
  | command {s : Shell} {c : TelnetCommand} {octets stream keys : Keys} :
      octets.map Prod.fst = c.encode → s.keymap = .normal → s.flagEscape = false → c.Harmless →
        HarmlessStream s stream keys → HarmlessStream s (octets ++ stream) keys

theorem HarmlessStream.interleaving {s : Shell} {stream keys : Keys}
    (h : HarmlessStream s stream keys) : Interleaving stream keys := by
  induction h with
  | nil s => exact .nil
  | key data rest _ _ => exact .key data rest
  | command sent _ _ _ _ ih => exact .command sent ih

theorem typeKeys_append (keys keys' : Keys) (s : Shell) :
    typeKeys (keys ++ keys') s = typeKeys keys s >>= typeKeys keys' := List.foldlM_append

theorem keyFuncIac1_twoByte {cmd : Byte} (valid : telnetSe < cmd ∧ cmd < telnetSb) :
    keyFuncIac1 cmd = .telnetOpt := by
  have other : ∀ b, ¬ (telnetSe < b ∧ b < telnetSb) → cmd ≠ b :=
    fun b outside same => outside (same ▸ valid)
  rw [keyFuncIac1, if_neg (other _ (by decide)), if_neg (other _ (by decide)), if_neg]
  rintro (same | same | same | same)
  all_goals exact other _ (by decide) same

theorem keyFuncIac1_option {cmd : Byte} (valid : telnetWill ≤ cmd ∧ cmd ≤ telnetDont) :
    keyFuncIac1 cmd = .telnetCmd := by
  have other : ∀ b, ¬ (telnetWill ≤ b ∧ b ≤ telnetDont) → cmd ≠ b :=
    fun b outside same => outside (same ▸ valid)
  rw [keyFuncIac1, if_neg (other _ (by decide)), if_neg (other _ (by decide)), if_pos]
  obtain ⟨low, high⟩ := valid
  simp only [telnetWill, telnetDont, telnetDo, telnetWont] at low high ⊢
  bv_omega

/-- A payload without 255 is sent as it is. -/
theorem flatMap_telnetEscape {buf : List Byte} (data : telnetIac ∉ buf) :
    buf.flatMap telnetEscape = buf := by
  induction buf with
  | nil => rfl
  | cons b buf ih =>
      rw [List.mem_cons, not_or] at data
      rw [List.flatMap_cons, ih data.2, telnetEscape, if_neg (Ne.symm data.1)]
      rfl

/-! ## The octets of a command -/

/-- The shell is in this keymap, with this payload, and otherwise differs in what was written
    and in what only telnet looks at. -/
def Shell.Telnet (s : Shell) (keymap : Keymap) (buf : List Byte) (s' : Shell) : Prop :=
  ∃ out buffered ch row col cmd opt, s' = { s with
    toEditor := { s.toEditor with out := out }
    buffered := buffered
    inputch := ch
    keymap := keymap
    wsRow := row
    wsCol := col
    telnetCmd := cmd
    telnetOpt := opt
    subnegoBuf := buf }

namespace Shell

variable {normal : Byte → Option Keyfunc} {s t u : Shell} {k k' : Keymap} {buf buf' : List Byte}

theorem Telnet.refl (s : Shell) : s.Telnet s.keymap s.subnegoBuf s :=
  ⟨s.out, s.buffered, s.inputch, s.wsRow, s.wsCol, s.telnetCmd, s.telnetOpt, rfl⟩

theorem Telnet.trans (h : s.Telnet k buf t) (h' : t.Telnet k' buf' u) : s.Telnet k' buf' u := by
  obtain ⟨out, buffered, ch, row, col, cmd, opt, rfl⟩ := h
  obtain ⟨out, buffered, ch, row, col, cmd, opt, rfl⟩ := h'
  exact ⟨out, buffered, ch, row, col, cmd, opt, rfl⟩

theorem Telnet.ok (h : s.Telnet k buf t) (ok : s.Ok (fun _ => True) normal) :
    t.Ok (fun _ => True) normal := by
  obtain ⟨out, buffered, ch, row, col, cmd, opt, rfl⟩ := h
  obtain ⟨l, holds⟩ := ok.line
  exact { ok with line := ⟨l, { holds with }⟩ }

theorem Telnet.keymap_eq (h : s.Telnet k buf t) : t.keymap = k := by
  obtain ⟨out, buffered, ch, row, col, cmd, opt, rfl⟩ := h
  rfl

theorem Telnet.subnegoBuf_eq (h : s.Telnet k buf t) : t.subnegoBuf = buf := by
  obtain ⟨out, buffered, ch, row, col, cmd, opt, rfl⟩ := h
  rfl

theorem Telnet.flagEscape_eq (h : s.Telnet k buf t) : t.flagEscape = s.flagEscape := by
  obtain ⟨out, buffered, ch, row, col, cmd, opt, rfl⟩ := h
  rfl

/-- What leaves the keymap and the payload as they are. -/
theorem Telnet.still (h : s.Telnet k buf t) (h' : t.Telnet t.keymap t.subnegoBuf u) :
    s.Telnet k buf u := by
  rw [h.keymap_eq, h.subnegoBuf_eq] at h'
  exact h.trans h'

theorem telnet_refresh (ok : s.Ok (fun _ => True) normal) (a : Answers) :
    ∃ t, shellRefresh a s = .ok t ∧ s.Telnet s.keymap s.subnegoBuf t ∧ t.inputch = s.inputch := by
  obtain ⟨l, holds⟩ := ok.line
  exact ⟨_, shellRefresh_spec holds a, ⟨_, [], s.inputch, s.wsRow, s.wsCol, s.telnetCmd,
    s.telnetOpt, rfl⟩, rfl⟩

theorem telnet_debug (s : Shell) (a : Answers) :
    s.Telnet s.keymap s.subnegoBuf (telnetDebug a s) := by
  unfold telnetDebug
  split
  · exact ⟨_, _, s.inputch, s.wsRow, s.wsCol, s.telnetCmd, s.telnetOpt, rfl⟩
  · exact .refl s

theorem telnet_fflush (s : Shell) : s.Telnet s.keymap s.subnegoBuf s.fflush :=
  ⟨_, [], s.inputch, s.wsRow, s.wsCol, s.telnetCmd, s.telnetOpt, rfl⟩

theorem telnet_apply (s : Shell) (a : Answers) :
    s.Telnet s.keymap s.subnegoBuf (applySubnego a s) := by
  unfold applySubnego
  split
  · split
    · exact Telnet.trans ⟨s.out, s.buffered, s.inputch, _, _, s.telnetCmd, s.telnetOpt, rfl⟩
        (telnet_debug _ a)
    · exact .refl s
  · exact .refl s

/-- An octet of a command is fed to the function that is bound to it. -/
theorem telnet_input {ch : Byte} {f : Keyfunc} (ok : s.Ok (fun _ => True) normal)
    (flag : s.flagEscape = false) (bound : s.keyfunc ch = some f) (a : Answers)
    (run : ∀ t, s.Telnet s.keymap s.subnegoBuf t → t.inputch = ch →
      ∃ u, f.run a t = .ok u ∧ t.Telnet k buf u) :
    ∃ u, shellInput a ch s = .ok u ∧ s.Telnet k buf u := by
  have saved : s.Telnet s.keymap s.subnegoBuf { s with inputch := ch } :=
    ⟨s.out, s.buffered, ch, s.wsRow, s.wsCol, s.telnetCmd, s.telnetOpt, rfl⟩
  obtain ⟨t, debugged, ht, input⟩ : ∃ t, debugInput a { s with inputch := ch } = .ok t ∧
      s.Telnet s.keymap s.subnegoBuf t ∧ t.inputch = ch := by
    unfold debugInput
    split
    · have printed : s.Telnet s.keymap s.subnegoBuf
          (Shell.fprintf (s.nl ++ a.debugText ++ s.nl) { s with inputch := ch }) :=
        ⟨s.out, _, ch, s.wsRow, s.wsCol, s.telnetCmd, s.telnetOpt, rfl⟩
      obtain ⟨t, refreshed, ht, input⟩ := telnet_refresh (printed.ok ok) a
      exact ⟨t, refreshed, printed.trans ht, input⟩
    · exact ⟨_, rfl, saved, rfl⟩
  obtain ⟨u, called, hu⟩ := run t ht input
  have both := ht.trans hu
  have same : t.keyfunc ch = s.keyfunc ch := by
    obtain ⟨out, buffered, ch, row, col, cmd, opt, rfl⟩ := ht
    rfl
  obtain ⟨v, finished, hv⟩ : ∃ v, finishInput a false u = .ok v ∧ s.Telnet k buf v := by
    unfold finishInput
    rw [if_neg Bool.false_ne_true]
    dsimp only
    split
    · obtain ⟨v, refreshed, hv, -⟩ := telnet_refresh (both.ok ok) a
      exact ⟨v, refreshed, both.still hv⟩
    · exact ⟨u, rfl, both⟩
  refine ⟨v, ?_, hv⟩
  rw [← flag] at finished
  rw [shellInput, debugged]
  change callKeyfunc a ch t >>= finishInput a s.flagEscape = _
  rw [callKeyfunc, same, bound]
  change f.run a t >>= finishInput a s.flagEscape = _
  rw [called]
  exact finished

/-- IAC begins a command, in the payload of a subnegotiation as outside. -/
theorem telnet_iac (ok : s.Ok (fun _ => True) normal) (flag : s.flagEscape = false)
    (iac : normal telnetIac = some .iacStart) (keymap : s.keymap = .normal ∨ s.keymap = .subnego)
    (a : Answers) : ∃ u, shellInput a telnetIac s = .ok u ∧ s.Telnet .iac1 s.subnegoBuf u := by
  have bound : s.keyfunc telnetIac = some .iacStart := by
    unfold keyfunc
    rcases keymap with keymap | keymap
    · rw [keymap, ok.keymapNormal]
      exact iac
    · rw [keymap]
      rfl
  apply telnet_input ok flag bound a
  rintro _ ⟨out, buffered, ch, row, col, cmd, opt, rfl⟩ -
  exact ⟨_, rfl, out, buffered, ch, row, col, 0, opt, rfl⟩

/-- An octet that ends a command. -/
theorem telnet_opt {ch : Byte} (ok : s.Ok (fun _ => True) normal) (flag : s.flagEscape = false)
    (bound : s.keyfunc ch = some .telnetOpt) (a : Answers) :
    ∃ u, shellInput a ch s = .ok u ∧ s.Telnet .normal s.subnegoBuf u := by
  apply telnet_input ok flag bound a
  rintro _ ⟨out, buffered, ch, row, col, cmd, opt, rfl⟩ -
  refine ⟨_, rfl, Telnet.still ?_ (telnet_fflush _)⟩
  refine Telnet.still ?_ (telnet_debug _ a)
  exact ⟨out, buffered, ch, row, col, cmd, ch, rfl⟩

/-- The octet between IAC and an option. -/
theorem telnet_cmd {ch : Byte} (ok : s.Ok (fun _ => True) normal) (flag : s.flagEscape = false)
    (bound : s.keyfunc ch = some .telnetCmd) (a : Answers) :
    ∃ u, shellInput a ch s = .ok u ∧ s.Telnet .iac2 s.subnegoBuf u := by
  apply telnet_input ok flag bound a
  rintro _ ⟨out, buffered, ch, row, col, cmd, opt, rfl⟩ -
  exact ⟨_, rfl, out, buffered, ch, row, col, ch, opt, rfl⟩

/-- SB behind IAC. -/
theorem telnet_sb (ok : s.Ok (fun _ => True) normal) (flag : s.flagEscape = false)
    (keymap : s.keymap = .iac1) (a : Answers) :
    ∃ u, shellInput a telnetSb s = .ok u ∧ s.Telnet .subnego [] u := by
  have bound : s.keyfunc telnetSb = some .sbStart := by
    rw [keyfunc, keymap]
    rfl
  apply telnet_input ok flag bound a
  rintro _ ⟨out, buffered, ch, row, col, cmd, opt, rfl⟩ -
  refine ⟨_, rfl, Telnet.still ?_ (telnet_fflush _)⟩
  refine Telnet.still ?_ (telnet_debug _ a)
  exact ⟨out, buffered, ch, row, col, cmd, opt, rfl⟩

/-- An octet of the payload for which there is room. -/
theorem telnet_payload {ch : Byte} (ok : s.Ok (fun _ => True) normal)
    (flag : s.flagEscape = false) (keymap : s.keymap = .subnego) (data : ch ≠ telnetIac)
    (room : s.subnegoBuf.length < sizeofSubnegoBuf) (a : Answers) :
    ∃ u, shellInput a ch s = .ok u ∧ s.Telnet .subnego (s.subnegoBuf ++ [ch]) u := by
  have bound : s.keyfunc ch = some .subnego := by
    rw [keyfunc, keymap]
    exact congrArg some (if_neg data)
  apply telnet_input ok flag bound a
  rintro _ ⟨out, buffered, ch', row, col, cmd, opt, rfl⟩ rfl
  refine ⟨_, rfl, Telnet.still ?_ (telnet_fflush _)⟩
  dsimp only
  rw [if_pos room]
  exact ⟨out, buffered, ch', row, col, cmd, opt, by rw [← keymap]⟩

end Shell

theorem length_le_subnegoLength (buf : List Byte) : buf.length ≤ subnegoLength buf := by
  have each : ∀ n ∈ buf.map hexLength, 1 ≤ n := by
    intro n mem
    obtain ⟨b, -, rfl⟩ := List.mem_map.mp mem
    unfold hexLength
    split
    · decide
    · split <;> decide
  have sum := List.length_le_sum_of_one_le (buf.map hexLength) each
  rw [List.length_map] at sum
  exact sum.trans (Nat.le_add_left _ _)

theorem foldlM_snprintfSubnego (buf : List Byte) (p : Nat) (fits : p + (buf.map hexLength).sum ≤ 63) :
    buf.foldlM (fun p b => snprintfSubnego p (hexLength b)) p =
      .ok (p + (buf.map hexLength).sum) := by
  induction buf generalizing p with
  | nil => rfl
  | cons b buf ih =>
      rw [List.map_cons, List.sum_cons, ← Nat.add_assoc] at fits
      have inside : ¬ 63 < p := by omega
      rw [List.foldlM_cons, snprintfSubnego, if_neg inside]
      refine (ih _ fits).trans ?_
      rw [List.map_cons, List.sum_cons, Nat.add_assoc]

theorem describeSubnego_fits {buf : List Byte} (fits : subnegoLength buf ≤ 63) :
    describeSubnego buf = .ok (subnegoLength buf + 1) := by
  have first : snprintfSubnego 0 (7 + (Nat.toDigits 10 buf.length).length) =
      .ok (7 + (Nat.toDigits 10 buf.length).length) := by
    rw [snprintfSubnego, if_neg (Nat.not_lt_zero 63), Nat.zero_add]
  have last : snprintfSubnego (subnegoLength buf) 1 = .ok (subnegoLength buf + 1) := if_neg (by omega)
  rw [describeSubnego, first]
  change (buf.foldlM (fun p b => snprintfSubnego p (hexLength b)) _ >>= _) = _
  rw [foldlM_snprintfSubnego buf _ fits]
  exact last

namespace Shell

variable {normal : Byte → Option Keyfunc} {s t u : Shell} {k k' : Keymap} {buf buf' : List Byte}

/-- SE behind IAC. -/
theorem telnet_se (ok : s.Ok (fun _ => True) normal) (flag : s.flagEscape = false)
    (keymap : s.keymap = .iac1) (fits : subnegoLength s.subnegoBuf ≤ 63) (a : Answers) :
    ∃ u, shellInput a telnetSe s = .ok u ∧ s.Telnet .normal s.subnegoBuf u := by
  have bound : s.keyfunc telnetSe = some .sbEnd := by
    rw [keyfunc, keymap]
    rfl
  apply telnet_input ok flag bound a
  intro t ht _
  have back : t.Telnet .normal t.subnegoBuf { t with keymap := .normal } :=
    ⟨t.out, t.buffered, t.inputch, t.wsRow, t.wsCol, t.telnetCmd, t.telnetOpt, rfl⟩
  have debugged := (back.still (telnet_debug _ a)).still (telnet_debug _ a)
  have applied := (debugged.still (telnet_apply _ a)).still (telnet_fflush _)
  obtain ⟨u, refreshed, hu, -⟩ := telnet_refresh (applied.ok (ht.ok ok)) a
  refine ⟨u, ?_, ht.subnegoBuf_eq ▸ applied.still hu⟩
  have described : describeSubnego t.subnegoBuf = _ :=
    describeSubnego_fits (ht.subnegoBuf_eq ▸ fits)
  have same : (telnetDebug a { t with keymap := .normal }).subnegoBuf = t.subnegoBuf :=
    (back.still (telnet_debug _ a)).subnegoBuf_eq
  rw [Keyfunc.run, vtyShellKeyfuncSbEnd, same, described]
  exact refreshed

/-- The keys are taken, and only telnet's part of the shell changes. -/
def Feeds (s : Shell) (keys : Keys) (k : Keymap) (buf : List Byte) : Prop :=
  ∃ u, typeKeys keys s = .ok u ∧ s.Telnet k buf u

theorem Feeds.nil (s : Shell) : s.Feeds [] s.keymap s.subnegoBuf := ⟨s, rfl, .refl s⟩

theorem Feeds.append {keys keys' : Keys} (first : s.Feeds keys k buf)
    (rest : ∀ u, s.Telnet k buf u → u.Feeds keys' k' buf') :
    s.Feeds (keys ++ keys') k' buf' := by
  obtain ⟨u, typed, hu⟩ := first
  obtain ⟨v, typed', hv⟩ := rest u hu
  refine ⟨v, ?_, hu.trans hv⟩
  rw [typeKeys_append, typed]
  exact typed'

theorem Feeds.cons {key : Byte × Answers} {keys : Keys}
    (first : ∃ u, shellInput key.2 key.1 s = .ok u ∧ s.Telnet k buf u)
    (rest : ∀ u, s.Telnet k buf u → u.Feeds keys k' buf') : s.Feeds (key :: keys) k' buf' := by
  obtain ⟨u, input, hu⟩ := first
  obtain ⟨v, typed, hv⟩ := rest u hu
  refine ⟨v, ?_, hu.trans hv⟩
  rw [typeKeys, List.foldlM_cons, input]
  exact typed

theorem Feeds.single {key : Byte × Answers}
    (first : ∃ u, shellInput key.2 key.1 s = .ok u ∧ s.Telnet k buf u) : s.Feeds [key] k buf := by
  refine .cons first fun u hu => ?_
  have last := Feeds.nil u
  rwa [hu.keymap_eq, hu.subnegoBuf_eq] at last

section
variable (ok : s.Ok (fun _ => True) normal) (flag : s.flagEscape = false)

include ok flag

/-- The payload is collected, as long as there is room. -/
theorem feeds_payload {keys : Keys} (keymap : s.keymap = .subnego)
    (data : ∀ key ∈ keys, key.1 ≠ telnetIac)
    (room : s.subnegoBuf.length + keys.length ≤ sizeofSubnegoBuf) :
    s.Feeds keys .subnego (s.subnegoBuf ++ keys.map Prod.fst) := by
  induction keys generalizing s with
  | nil =>
      have none := Feeds.nil s
      rwa [keymap, ← List.append_nil s.subnegoBuf] at none
  | cons key keys ih =>
      rw [List.length_cons] at room
      refine .cons (telnet_payload ok flag keymap (data key List.mem_cons_self) (by omega) key.2) ?_
      intro u hu
      have next := ih (hu.ok ok) (hu.flagEscape_eq.trans flag) hu.keymap_eq
        (fun key' mem => data key' (List.mem_cons_of_mem key mem))
      rw [hu.subnegoBuf_eq, List.length_append, List.length_singleton, List.append_assoc] at next
      exact next (by omega)

variable (iac : normal telnetIac = some .iacStart)

include iac

/-- Doubled 255s, the first of which ends the payload. -/
theorem feeds_doubled {n : Nat} {keys : Keys}
    (octets : keys.map Prod.fst = (List.replicate n telnetIac).flatMap telnetEscape)
    (keymap : s.keymap = .normal ∨ s.keymap = .subnego) :
    s.Feeds keys (if n = 0 then s.keymap else .normal) s.subnegoBuf := by
  induction n generalizing s keys with
  | zero =>
      rw [List.map_eq_nil_iff.mp octets]
      exact .nil s
  | succ n ih =>
      rw [List.replicate_succ, List.flatMap_cons] at octets
      obtain ⟨⟨_, a⟩, _, rfl, rfl, behind⟩ := List.map_eq_cons_iff.mp octets
      obtain ⟨⟨_, a'⟩, keys, rfl, rfl, rest⟩ := List.map_eq_cons_iff.mp behind
      rw [if_neg (Nat.succ_ne_zero n)]
      refine .cons (telnet_iac ok flag iac keymap a) fun t ht => ?_
      have bound : t.keyfunc telnetIac = some .telnetOpt := by
        rw [keyfunc, ht.keymap_eq]
        rfl
      have flag' := ht.flagEscape_eq.trans flag
      refine .cons (telnet_opt (ht.ok ok) flag' bound a') fun u hu => ?_
      have next := ih (hu.ok (ht.ok ok)) (hu.flagEscape_eq.trans flag') rest (.inl hu.keymap_eq)
      rwa [hu.keymap_eq, ite_self, hu.subnegoBuf_eq, ht.subnegoBuf_eq] at next

/-- IAC SE behind a payload that can be described. -/
theorem feeds_end {keys : Keys} (octets : keys.map Prod.fst = [telnetIac, telnetSe])
    (keymap : s.keymap = .normal ∨ s.keymap = .subnego) (fits : subnegoLength s.subnegoBuf ≤ 63) :
    s.Feeds keys .normal s.subnegoBuf := by
  obtain ⟨⟨_, a⟩, _, rfl, rfl, behind⟩ := List.map_eq_cons_iff.mp octets
  obtain ⟨⟨_, a'⟩, rfl, rfl⟩ := List.map_eq_singleton_iff.mp behind
  refine .cons (telnet_iac ok flag iac keymap a) fun t ht => .single ?_
  have ended := telnet_se (ht.ok ok) (ht.flagEscape_eq.trans flag) ht.keymap_eq
    (ht.subnegoBuf_eq ▸ fits) a'
  rwa [ht.subnegoBuf_eq] at ended

/-- A command is taken, and the keymap is the normal one again. -/
theorem feeds_command {c : TelnetCommand} {keys : Keys} (keymap : s.keymap = .normal)
    (octets : keys.map Prod.fst = c.encode) (harmless : c.Harmless) :
    ∃ buf, s.Feeds keys .normal buf := by
  cases c with
  | twoByte cmd valid =>
      obtain ⟨⟨_, a⟩, _, rfl, rfl, behind⟩ := List.map_eq_cons_iff.mp octets
      obtain ⟨⟨cmd, a'⟩, rfl, rfl⟩ := List.map_eq_singleton_iff.mp behind
      refine ⟨s.subnegoBuf, .cons (telnet_iac ok flag iac (.inl keymap) a) fun t ht => .single ?_⟩
      have bound : t.keyfunc cmd = some .telnetOpt := by
        rw [keyfunc, ht.keymap_eq]
        exact congrArg some (keyFuncIac1_twoByte valid)
      have ended := telnet_opt (ht.ok ok) (ht.flagEscape_eq.trans flag) bound a'
      rwa [ht.subnegoBuf_eq] at ended
  | option cmd opt valid =>
      obtain ⟨⟨_, a⟩, _, rfl, rfl, behind⟩ := List.map_eq_cons_iff.mp octets
      obtain ⟨⟨cmd, a'⟩, _, rfl, rfl, last⟩ := List.map_eq_cons_iff.mp behind
      obtain ⟨⟨opt, a''⟩, rfl, rfl⟩ := List.map_eq_singleton_iff.mp last
      refine ⟨s.subnegoBuf, .cons (telnet_iac ok flag iac (.inl keymap) a) fun t ht => ?_⟩
      have bound : t.keyfunc cmd = some .telnetCmd := by
        rw [keyfunc, ht.keymap_eq]
        exact congrArg some (keyFuncIac1_option valid)
      have flag' := ht.flagEscape_eq.trans flag
      refine .cons (telnet_cmd (ht.ok ok) flag' bound a') fun u hu => .single ?_
      have bound' : u.keyfunc opt = some .telnetOpt := by
        rw [keyfunc, hu.keymap_eq]
      have ended := telnet_opt (hu.ok (ht.ok ok)) (hu.flagEscape_eq.trans flag') bound' a''
      rwa [hu.subnegoBuf_eq, ht.subnegoBuf_eq] at ended
  | subnegotiation payload =>
      obtain ⟨buf, n, rfl, data, fits⟩ := harmless
      rw [TelnetCommand.encode, List.flatMap_append, flatMap_telnetEscape data] at octets
      obtain ⟨_, last, rfl, front, ended⟩ := List.map_eq_append_iff.mp octets
      obtain ⟨start, _, rfl, begun, front⟩ := List.map_eq_append_iff.mp front
      obtain ⟨body, doubled, rfl, rfl, tail⟩ := List.map_eq_append_iff.mp front
      refine ⟨body.map Prod.fst, ?_⟩
      have flagOf := fun {t : Shell} {k buf} (ht : s.Telnet k buf t) => ht.flagEscape_eq.trans flag
      have opened : s.Feeds start .subnego [] := by
        obtain ⟨⟨_, a⟩, _, rfl, rfl, behind⟩ := List.map_eq_cons_iff.mp begun
        obtain ⟨⟨_, a'⟩, rfl, rfl⟩ := List.map_eq_singleton_iff.mp behind
        exact .cons (telnet_iac ok flag iac (.inl keymap) a) fun t ht =>
          .single (telnet_sb (ht.ok ok) (flagOf ht) ht.keymap_eq a')
      have collected : s.Feeds (start ++ body) .subnego (body.map Prod.fst) := by
        refine opened.append fun t ht => ?_
        have room : t.subnegoBuf.length + body.length ≤ sizeofSubnegoBuf := by
          have described : (body.map Prod.fst).length ≤ _ := length_le_subnegoLength _
          rw [List.length_map] at described
          rw [ht.subnegoBuf_eq, sizeofSubnegoBuf, List.length_nil]
          omega
        have fed := feeds_payload (ht.ok ok) (flagOf ht) ht.keymap_eq
          (fun key mem same => data (same ▸ List.mem_map_of_mem mem)) room
        rwa [ht.subnegoBuf_eq, List.nil_append] at fed
      have skipped : s.Feeds (start ++ body ++ doubled) (if n = 0 then .subnego else .normal)
          (body.map Prod.fst) := by
        refine collected.append fun t ht => ?_
        have fed := feeds_doubled (ht.ok ok) (flagOf ht) iac tail (.inr ht.keymap_eq)
        rwa [ht.keymap_eq, ht.subnegoBuf_eq] at fed
      rw [← List.append_assoc start]
      refine skipped.append fun t ht => ?_
      have parsed : t.keymap = .normal ∨ t.keymap = .subnego := by
        rw [ht.keymap_eq]
        split
        · exact .inr rfl
        · exact .inl rfl
      have fed := feeds_end (ht.ok ok) (flagOf ht) iac ended parsed (ht.subnegoBuf_eq ▸ fits)
      rwa [ht.subnegoBuf_eq] at fed

end

/-! ## The keys with and without the commands -/

/-- The shells have the same keymap and differ in what was written, in the last octet that was
    fed to them and in what only telnet looks at. -/
def AlikeNext (s t : Shell) : Prop := ∃ buf, s.Telnet s.keymap buf t

theorem AlikeNext.refl (s : Shell) : s.AlikeNext s := ⟨s.subnegoBuf, .refl s⟩

theorem Alike.next (h : s.Alike t) : s.AlikeNext t := by
  obtain ⟨out, buffered, row, col, cmd, opt, buf, rfl⟩ := h
  exact ⟨buf, out, buffered, s.inputch, row, col, cmd, opt, rfl⟩

theorem AlikeNext.input (h : s.AlikeNext t) (ch : Byte) :
    Shell.Alike { s with inputch := ch } { t with inputch := ch } := by
  obtain ⟨buf, out, buffered, _, row, col, cmd, opt, rfl⟩ := h
  exact ⟨out, buffered, row, col, cmd, opt, buf, rfl⟩

theorem AlikeNext.view_eq (h : s.AlikeNext t) : t.view = s.view := by
  obtain ⟨buf, out, buffered, _, row, col, cmd, opt, rfl⟩ := h
  rfl

theorem AlikeNext.flagEscape_eq (h : s.AlikeNext t) : t.flagEscape = s.flagEscape := by
  obtain ⟨buf, out, buffered, _, row, col, cmd, opt, rfl⟩ := h
  rfl

/-- The same octet is typed into shells that are alike. -/
theorem debugInput_alike (h : s.Alike t) (a : Answers) :
    Agree Shell.Alike (debugInput a s) (debugInput a t) := by
  obtain ⟨out, buffered, row, col, cmd, opt, buf, rfl⟩ := id h
  exact .ite (Iff.refl (s.debugShell = true)) (h.fprintf _).refresh (.ok h)

theorem finishInput_alike (h : s.Alike t) (a : Answers) (escaped : Bool) :
    Agree Shell.Alike (finishInput a escaped s) (finishInput a escaped t) := by
  have cleared : Shell.Alike (if escaped then { s with flagEscape := false } else s)
      (if escaped then { t with flagEscape := false } else t) := by
    refine .ite Iff.rfl ?_ h
    obtain ⟨out, buffered, row, col, cmd, opt, buf, rfl⟩ := h
    exact ⟨out, buffered, row, col, cmd, opt, buf, rfl⟩
  unfold finishInput
  generalize (if escaped then { s with flagEscape := false } else s) = s' at cleared ⊢
  generalize (if escaped then { t with flagEscape := false } else t) = t' at cleared ⊢
  obtain ⟨out, buffered, row, col, cmd, opt, buf, rfl⟩ := id cleared
  exact .ite (Iff.refl (s'.flagDebug = true)) cleared.refresh (.ok cleared)

theorem callKeyfunc_alike {ch : Byte} (h : s.Alike t)
    (plain : ∀ f, s.keyfunc ch = some f → f.telnet = false) (a : Answers) :
    Agree Shell.Alike (callKeyfunc a ch s) (callKeyfunc a ch t) := by
  have same : t.keyfunc ch = s.keyfunc ch := by
    obtain ⟨out, buffered, row, col, cmd, opt, buf, rfl⟩ := h
    rfl
  unfold callKeyfunc
  rw [same]
  cases bound : s.keyfunc ch with
  | none => exact .ok h
  | some f => exact f.run_alike (plain f bound) h a

/-- A key that is not telnet's. -/
theorem shellInput_alike {ch : Byte} (h : s.AlikeNext t)
    (ok : s.Ok (fun k => k.typing = true) normal)
    (plain : ∀ f, s.keyfunc ch = some f → f.telnet = false) (a : Answers) :
    Agree Shell.AlikeNext (shellInput a ch s) (shellInput a ch t) := by
  have saved : Shell.Ok (· = s.keymap) normal { s with inputch := ch } := { ok with keymap := rfl }
  have debugged := (debugInput_ok saved a).2
  refine (debugInput_alike (h.input ch) a).bind_of fun s₁ t₁ first h₁ => ?_
  have ok₁ := debugged s₁ first
  have same : s₁.keyfunc ch = s.keyfunc ch := by
    rw [keyfunc, keyfunc, ok₁.keymap, ok₁.keymapNormal, ok.keymapNormal]
  refine (callKeyfunc_alike h₁ (same ▸ plain) a).bind fun s₂ t₂ h₂ => ?_
  rw [h.flagEscape_eq]
  exact (finishInput_alike h₂ a s.flagEscape).imp fun _ _ => Alike.next

end Shell

theorem keyfunc_plain {normal : Byte → Option Keyfunc} {s : Shell} {ch : Byte}
    (ok : s.Ok (fun k => k.typing = true) normal)
    (plain : ∀ f, normal ch = some f → f.telnet = false) :
    ∀ f, s.keyfunc ch = some f → f.telnet = false := by
  have typing := ok.keymap
  unfold Shell.keyfunc
  rw [ok.keymapNormal]
  cases keymap : s.keymap with
  | normal => exact plain
  | escape1 =>
      rintro f ⟨⟩
      unfold keyFuncEscape1
      repeat' split
      all_goals rfl
  | escape2 =>
      rintro f ⟨⟩
      rfl
  | iac1 | iac2 | subnego =>
      rw [keymap] at typing
      cases typing

/-- A stream of keys and harmless telnet commands does what the keys do. -/
theorem HarmlessStream.agree {normal : Byte → Option Keyfunc} {s t : Shell} {stream keys : Keys}
    (iac : normal telnetIac = some .iacStart)
    (plain : ∀ ch f, ch ≠ telnetIac → normal ch = some f → f.telnet = false)
    (harmless : HarmlessStream s stream keys) (ok : s.Ok (fun k => k.typing = true) normal)
    (h : s.AlikeNext t) : Agree Shell.AlikeNext (typeKeys keys s) (typeKeys stream t) := by
  induction harmless generalizing t with
  | nil s => exact .ok h
  | @key s ch a stream keys data _ rest ih =>
      have bound := keyfunc_plain ok fun f => plain ch f data
      refine (Shell.shellInput_alike h ok bound a).bind_of fun s' t' typed h' => ?_
      refine ih s' typed ((Shell.input_ok ok a ch ?_).2 s' typed) h'
      intro f hf k hk
      rw [bound f hf] at hk
      exact hk.resolve_left Bool.false_ne_true
  | @command s c octets stream keys sent keymap flag harmless rest ih =>
      obtain ⟨_, ht⟩ := id h
      have any := ht.ok { ok with keymap := trivial }
      obtain ⟨buf, u, typed, hu⟩ := Shell.feeds_command any (ht.flagEscape_eq.trans flag) iac
        (ht.keymap_eq.trans keymap) sent harmless
      rw [typeKeys_append, typed]
      exact ih ok ⟨buf, keymap ▸ ht.trans hu⟩

/-- Harmless telnet commands among the keys change neither the command line nor the cursor nor
    the keymap, from any state of a prepared shell in which its keymap is the normal one. -/
theorem telnet_transparent (binds : List (Byte × Keyfunc)) (writefd : Nat)
    (events : List ShellEvent) {s : Shell}
    (reached : runShell events (freshShell binds writefd) = .ok s) (normal : s.keymap = .normal)
    (prepared : s.TelnetPrepared) {stream keys : Keys} (harmless : HarmlessStream s stream keys) :
    (typeKeys stream s).map Shell.view = (typeKeys keys s).map Shell.view := by
  have fresh := freshShell_ok binds writefd
  have ok := (runShell_ok { fresh with keymap := trivial } events).2 s reached
  have typing : s.Ok (fun k => k.typing = true) s.keymapNormal :=
    { ok with keymap := normal ▸ rfl, keymapNormal := rfl }
  have agree := harmless.agree prepared.iac prepared.plain typing (.refl s)
  exact (agree.map_eq fun _ _ h => h.view_eq.symm).symm

theorem defaultKeymap_plain {ch : Byte} {f : Keyfunc} (bound : defaultKeymap ch = some f) :
    f.telnet = false := by
  unfold defaultKeymap at bound
  split at bound
  · cases bound
    rfl
  · split at bound <;> cases bound <;> rfl

/-- A shell with the default keys and telnet's. -/
def telnetShell : Shell := freshShell telnetBinds (1 : Nat)

theorem telnetShell_prepared : telnetShell.TelnetPrepared where
  iac := rfl
  plain := by
    intro ch f other bound
    change Function.update defaultKeymap telnetIac (some .iacStart) ch = some f at bound
    rw [Function.update_of_ne other] at bound
    exact defaultKeymap_plain bound

/-- An option is negotiated before a key. -/
theorem telnet_transparent_option :
    (typeKeys ([telnetIac, telnetDo, teloptNaws, charByte 'q'].map (·, Answers.silent))
        telnetShell).map Shell.view =
      (typeKeys [(charByte 'q', Answers.silent)] telnetShell).map Shell.view := by
  have option : telnetWill ≤ telnetDo ∧ telnetDo ≤ telnetDont := by decide
  have sent : ([telnetIac, telnetDo, teloptNaws].map (·, Answers.silent)).map Prod.fst =
      (TelnetCommand.option telnetDo teloptNaws option).encode := rfl
  apply telnet_transparent telnetBinds 1 [] rfl rfl telnetShell_prepared
  exact .command sent rfl rfl trivial (.key (by decide) .nil fun s' _ => .nil s')

/-- What follows a doubled 255 in a payload is typed. -/
theorem telnet_transparent_not :
    ¬ ∀ (binds : List (Byte × Keyfunc)) (writefd : Nat) (events : List ShellEvent) (s : Shell)
      (stream keys : Keys), runShell events (freshShell binds writefd) = .ok s →
        s.keymap = .normal → s.TelnetPrepared → Interleaving stream keys →
          (typeKeys stream s).map Shell.view = (typeKeys keys s).map Shell.view := by
  intro all
  have sent : ((TelnetCommand.subnegotiation [24, telnetIac, charByte 'q']).encode.map
      (·, Answers.silent)).map Prod.fst =
        (TelnetCommand.subnegotiation [24, telnetIac, charByte 'q']).encode := rfl
  have same := all telnetBinds 1 [] telnetShell _ _ rfl rfl telnetShell_prepared (.command sent .nil)
  have cursors := congrArg (Except.map fun v : ByteMem × Int × Int × Keymap => v.2.2.1) same
  change Except.ok 1 = Except.ok 0 at cursors
  cases cursors

end Sdplane
