import Mathlib.Data.BitVec
import Sdplane.Misc.Learned

/-!
# The forwarding database

`tap_handler_register_fdb` (`sdplane/tap_handler.c:175-212`) over the slots of `fdb[]`. A
slot with a zero address is free, and the scan takes the first free slot even when the
address is further on; that it never is, is what makes the table the one of `learn`.
-/

namespace Sdplane

/-- `struct fdb_entry`. -/
structure FdbEntry where
  l2addr : BitVec 48
  port : Nat
  deriving DecidableEq

/-- `FDB_SIZE`. -/
def fdbSize : Nat := 16

/-- `memset (fdb, 0, sizeof (fdb))`. -/
def fdbZeroed : List FdbEntry := List.replicate fdbSize ⟨0, 0⟩

/-- What is looked at of an mbuf: the source of its Ethernet header and `m->port`. -/
structure FdbFrame where
  srcAddr : BitVec 48
  port : Nat

/-- The scan of `tap_handler_register_fdb`, from a slot on. -/
def tapHandlerRegisterFdb (m : FdbFrame) : List FdbEntry → List FdbEntry
  | [] => []
  | e :: fdb =>
      -- rte_is_zero_ether_addr
      if e.l2addr = 0 then ⟨m.srcAddr, m.port⟩ :: fdb
      -- rte_is_same_ether_addr
      else if e.l2addr = m.srcAddr then { e with port := m.port } :: fdb
      else e :: tapHandlerRegisterFdb m fdb

/-- `fdb[]` after a sequence of frames. -/
def fdbAfter (frames : List FdbFrame) : List FdbEntry :=
  frames.foldl (fun fdb m => tapHandlerRegisterFdb m fdb) fdbZeroed

/-- The entries that hold an address. -/
def fdbEntries (fdb : List FdbEntry) : List FdbEntry :=
  fdb.filter fun e => e.l2addr ≠ 0

/-! ## One frame -/

/-- An address that is not in the table passes the whole of it. -/
theorem tapHandlerRegisterFdb_new {m : FdbFrame} {table : List FdbEntry} (free : List FdbEntry)
    (used : ∀ e ∈ table, e.l2addr ≠ 0) (new : m.srcAddr ∉ table.map FdbEntry.l2addr) :
    tapHandlerRegisterFdb m (table ++ free) = table ++ tapHandlerRegisterFdb m free := by
  induction table with
  | nil => rfl
  | cons e table ih =>
      have other : e.l2addr ≠ m.srcAddr := fun same =>
        new (List.mem_map.mpr ⟨e, List.mem_cons_self, same⟩)
      rw [List.cons_append, tapHandlerRegisterFdb, if_neg (used e List.mem_cons_self),
        if_neg other, ih (fun e' mem => used e' (List.mem_cons_of_mem _ mem))
          (fun mem => new (List.mem_cons_of_mem _ mem)), List.cons_append]

/-- An address in the table gets its port, the rest of the slots stay. -/
theorem tapHandlerRegisterFdb_known {m : FdbFrame} {table : List FdbEntry}
    (free : List FdbEntry) (used : ∀ e ∈ table, e.l2addr ≠ 0)
    (distinct : (table.map FdbEntry.l2addr).Nodup) (known : m.srcAddr ∈ table.map FdbEntry.l2addr) :
    tapHandlerRegisterFdb m (table ++ free) =
      table.map (fun e => if e.l2addr = m.srcAddr then ⟨m.srcAddr, m.port⟩ else e) ++ free := by
  induction table with
  | nil => simp at known
  | cons e table ih =>
      obtain ⟨fresh, distinct⟩ := List.nodup_cons.mp distinct
      rw [List.cons_append, tapHandlerRegisterFdb, if_neg (used e List.mem_cons_self),
        List.map_cons, List.cons_append]
      by_cases same : e.l2addr = m.srcAddr
      · -- the scan stops here, and no later entry has the address
        have others : ∀ e' ∈ table, e'.l2addr ≠ m.srcAddr := fun e' mem again =>
          fresh (List.mem_map.mpr ⟨e', mem, again.trans same.symm⟩)
        have rest : table.map (fun e =>
            if e.l2addr = m.srcAddr then (⟨m.srcAddr, m.port⟩ : FdbEntry) else e) = table := by
          refine (List.map_congr_left fun e' mem => ?_).trans (List.map_id table)
          rw [if_neg (others e' mem), id]
        rw [if_pos same, if_pos same, rest, ← same]
      · have known : m.srcAddr ∈ table.map FdbEntry.l2addr := by
          rw [List.map_cons, List.mem_cons] at known
          exact known.resolve_left (Ne.symm same)
        rw [if_neg same, if_neg same,
          ih (fun e' mem => used e' (List.mem_cons_of_mem _ mem)) distinct known]

/-! ## A sequence of frames -/

/-- The table as a list of keys with their values. -/
def fdbLearned (table : List FdbEntry) : List (BitVec 48 × Nat) :=
  table.map fun e => (e.l2addr, e.port)

/-- The sightings a sequence of frames gives; a zero source is none. -/
def fdbSeen (frames : List FdbFrame) : List (BitVec 48 × Nat) :=
  (frames.filter fun m => m.srcAddr ≠ 0).map fun m => (m.srcAddr, m.port)

/-- How the slots stand: the entries, then the free slots, whose ports mean nothing. -/
structure FdbOk (frames : List FdbFrame) (fdb table free : List FdbEntry) : Prop where
  slots : fdb = table ++ free
  size : fdb.length = fdbSize
  used : ∀ e ∈ table, e.l2addr ≠ 0
  unused : ∀ e ∈ free, e.l2addr = 0
  learned : fdbLearned table = learnAll fdbSize (fdbSeen frames)

theorem fdbLearned_keys (table : List FdbEntry) :
    (fdbLearned table).map Prod.fst = table.map FdbEntry.l2addr := by
  rw [fdbLearned, List.map_map]
  rfl

theorem fdbLearned_map (m : FdbFrame) (table : List FdbEntry) :
    fdbLearned (table.map fun e => if e.l2addr = m.srcAddr then ⟨m.srcAddr, m.port⟩ else e) =
      (fdbLearned table).map fun e => if e.1 = m.srcAddr then (m.srcAddr, m.port) else e := by
  rw [fdbLearned, fdbLearned, List.map_map, List.map_map]
  refine List.map_congr_left fun e _ => ?_
  simp only [Function.comp_apply]
  split <;> rfl

theorem fdbSeen_concat (frames : List FdbFrame) (m : FdbFrame) :
    fdbSeen (frames ++ [m]) =
      if m.srcAddr = 0 then fdbSeen frames else fdbSeen frames ++ [(m.srcAddr, m.port)] := by
  rw [fdbSeen, List.filter_append, List.map_append]
  by_cases zero : m.srcAddr = 0
  · simp [fdbSeen, zero]
  · rw [List.filter_cons_of_pos (by simpa using zero), if_neg zero]
    rfl

/-- An address has one entry. -/
theorem FdbOk.distinct {frames : List FdbFrame} {fdb table free : List FdbEntry}
    (ok : FdbOk frames fdb table free) : (table.map FdbEntry.l2addr).Nodup := by
  have keys : table.map FdbEntry.l2addr =
      ((fdbSeen frames).map Prod.fst).eraseDups.take fdbSize := by
    rw [← fdbLearned_keys, ok.learned, learnAll_keys]
  rw [keys]
  exact (nodup_eraseDups _).sublist (List.take_sublist _ _)

/-- The entry of the address gets the port. -/
theorem FdbOk.register_known {frames : List FdbFrame} {fdb table free : List FdbEntry}
    (ok : FdbOk frames fdb table free) {m : FdbFrame}
    (known : m.srcAddr ∈ table.map FdbEntry.l2addr) :
    ∃ table', FdbOk (frames ++ [m]) (tapHandlerRegisterFdb m fdb) table' free := by
  have distinct := ok.distinct
  obtain ⟨rfl, size, used, unused, learned⟩ := ok
  rw [List.length_append] at size
  have nonzero : m.srcAddr ≠ 0 := by
    obtain ⟨e, mem, same⟩ := List.mem_map.mp known
    exact same ▸ used e mem
  refine ⟨_, tapHandlerRegisterFdb_known free used distinct known, ?_, ?_, unused, ?_⟩
  · rw [tapHandlerRegisterFdb_known free used distinct known, List.length_append,
      List.length_map, size]
  · intro e mem
    obtain ⟨old, there, rfl⟩ := List.mem_map.mp mem
    split
    · exact nonzero
    · exact used old there
  · rw [fdbSeen_concat, if_neg nonzero, learnAll_concat, ← learned, fdbLearned_map, learn,
      fdbLearned_keys, if_pos known]

/-- A new address gets a free slot, as long as there is one. -/
theorem FdbOk.register_new {frames : List FdbFrame} {fdb table free : List FdbEntry}
    (ok : FdbOk frames fdb table free) {m : FdbFrame}
    (unknown : m.srcAddr ∉ table.map FdbEntry.l2addr) :
    ∃ table' free', FdbOk (frames ++ [m]) (tapHandlerRegisterFdb m fdb) table' free' := by
  obtain ⟨rfl, size, used, unused, learned⟩ := ok
  rw [List.length_append] at size
  have length : (fdbLearned table).length = table.length := by rw [fdbLearned, List.length_map]
  rw [tapHandlerRegisterFdb_new free used unknown]
  cases free with
  | nil =>
      -- full: the frame changes nothing
      refine ⟨table, [], rfl, by rw [tapHandlerRegisterFdb, List.length_append, size], used,
        unused, ?_⟩
      rw [fdbSeen_concat]
      split
      · exact learned
      · rw [learnAll_concat, ← learned, learn, fdbLearned_keys, if_neg unknown, length,
          if_neg (by simp only [List.length_nil] at size; omega)]
  | cons slot free =>
      rw [List.length_cons] at size
      rw [tapHandlerRegisterFdb, if_pos (unused slot List.mem_cons_self)]
      have rest : ∀ e ∈ free, e.l2addr = 0 := fun e mem =>
        unused e (List.mem_cons_of_mem _ mem)
      by_cases zero : m.srcAddr = 0
      · -- the free slot stays free, with another port
        refine ⟨table, ⟨m.srcAddr, m.port⟩ :: free, rfl, ?_, used, ?_, ?_⟩
        · rw [List.length_append, List.length_cons, size]
        · intro e mem
          rcases List.mem_cons.mp mem with rfl | mem
          · exact zero
          · exact rest e mem
        · rw [fdbSeen_concat, if_pos zero, learned]
      · refine ⟨table ++ [⟨m.srcAddr, m.port⟩], free, by rw [List.append_assoc]; rfl, ?_, ?_,
          rest, ?_⟩
        · rw [List.length_append, List.length_cons, size]
        · intro e mem
          rcases List.mem_append.mp mem with mem | mem
          · exact used e mem
          · rw [List.mem_singleton.mp mem]
            exact zero
        · rw [fdbSeen_concat, if_neg zero, learnAll_concat, ← learned, learn, fdbLearned_keys,
            if_neg unknown, length, if_pos (by omega), fdbLearned, List.map_append]
          rfl

/-- One more frame keeps the order of the slots and makes the step of `learn`. -/
theorem FdbOk.register {frames : List FdbFrame} {fdb table free : List FdbEntry}
    (ok : FdbOk frames fdb table free) (m : FdbFrame) :
    ∃ table' free', FdbOk (frames ++ [m]) (tapHandlerRegisterFdb m fdb) table' free' := by
  by_cases known : m.srcAddr ∈ table.map FdbEntry.l2addr
  · obtain ⟨table', after⟩ := ok.register_known known
    exact ⟨table', free, after⟩
  · exact ok.register_new known

theorem fdbAfter_ok (frames : List FdbFrame) :
    ∃ table free, FdbOk frames (fdbAfter frames) table free := by
  induction frames using List.reverseRecOn with
  | nil =>
      refine ⟨[], fdbZeroed, rfl, List.length_replicate, by simp, ?_, rfl⟩
      intro e mem
      rw [List.eq_of_mem_replicate mem]
  | append_singleton frames m ih =>
      obtain ⟨table, free, ok⟩ := ih
      rw [fdbAfter, List.foldl_append]
      exact ok.register m

theorem FdbOk.entries {frames : List FdbFrame} {fdb table free : List FdbEntry}
    (ok : FdbOk frames fdb table free) : fdbEntries fdb = table := by
  rw [fdbEntries, ok.slots, List.filter_append, List.filter_eq_self.mpr, List.filter_eq_nil_iff.mpr,
    List.append_nil]
  · intro e mem
    simp [ok.unused e mem]
  · intro e mem
    simpa using ok.used e mem

theorem latest_fdbSeen (frames : List FdbFrame) {addr : BitVec 48} (nonzero : addr ≠ 0) :
    latest (fdbSeen frames) addr =
      (frames.reverse.find? fun m => m.srcAddr = addr).map FdbFrame.port := by
  induction frames using List.reverseRecOn with
  | nil => rfl
  | append_singleton frames m ih =>
      rw [fdbSeen_concat, List.reverse_append, List.reverse_singleton, List.singleton_append,
        List.find?_cons]
      by_cases same : m.srcAddr = addr
      · rw [if_neg (same ▸ nonzero), latest_concat]
        simp [same]
      · have : latest (fdbSeen (frames ++ [m])) addr = latest (fdbSeen frames) addr := by
          rw [fdbSeen_concat]
          split
          · rfl
          · rw [latest_concat, if_neg same]
        rw [← fdbSeen_concat, this, ih]
        simp [same]

/-- After any frames the entries stand at the front of `fdb[]`, no address twice; they are
    the first 16 distinct sources, in the order they appeared, each with the port of its
    latest frame. -/
theorem fdbAfter_entries (frames : List FdbFrame) :
    (fdbAfter frames).length = fdbSize ∧
      fdbEntries (fdbAfter frames) <+: fdbAfter frames ∧
      ((fdbEntries (fdbAfter frames)).map FdbEntry.l2addr).Nodup ∧
      (fdbEntries (fdbAfter frames)).map FdbEntry.l2addr =
        ((frames.map FdbFrame.srcAddr).filter fun a => a ≠ 0).eraseDups.take fdbSize ∧
      ∀ e ∈ fdbEntries (fdbAfter frames),
        (frames.reverse.find? fun m => m.srcAddr = e.l2addr).map FdbFrame.port = some e.port := by
  obtain ⟨table, free, ok⟩ := fdbAfter_ok frames
  have sources : (fdbSeen frames).map Prod.fst =
      (frames.map FdbFrame.srcAddr).filter fun a => a ≠ 0 := by
    rw [fdbSeen, List.map_map, List.filter_map]
    rfl
  have keys : table.map FdbEntry.l2addr =
      ((frames.map FdbFrame.srcAddr).filter fun a => a ≠ 0).eraseDups.take fdbSize := by
    rw [← fdbLearned_keys, ok.learned, learnAll_keys, sources]
  rw [ok.entries]
  refine ⟨ok.size, ⟨free, ok.slots.symm⟩, ?_, keys, ?_⟩
  · rw [keys]
    exact (nodup_eraseDups _).sublist (List.take_sublist _ _)
  · intro e mem
    have here : (e.l2addr, e.port) ∈ learnAll fdbSize (fdbSeen frames) := by
      rw [← ok.learned]
      exact List.mem_map.mpr ⟨e, mem, rfl⟩
    rw [← latest_fdbSeen frames (ok.used e mem)]
    exact learnAll_latest fdbSize (fdbSeen frames) here

/-- A zero source is not learned, a known one only moves. -/
example : fdbEntries (fdbAfter [⟨5, 0⟩, ⟨0, 3⟩, ⟨7, 1⟩, ⟨5, 2⟩]) = [⟨5, 2⟩, ⟨7, 1⟩] := by
  decide

end Sdplane
