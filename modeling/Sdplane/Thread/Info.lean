import Sdplane.Misc.ForEach

/-!
# The table of threads

`thread_info.c:20-138`. A thread takes the lowest free slot of the table, and its slot is the
thread id it is given. Lookups walk over the whole table and return the last match.
-/

namespace Sdplane

/-- The functions an lcore runs (`lcore_function_t`). -/
inductive LcoreFunction
  | lthreadMain
  | tapHandler
  | l2Repeater
  | nettlpThread
  deriving DecidableEq

/-- The functions lthreads are created with. -/
inductive Lthread
  | vtyServer
  | startupConfig
  | consoleShell
  | statCollector
  | ribManager
  | vtyShell
  deriving DecidableEq

/-- `lthread_func`, to which `thread_register`'s callers cast either. -/
inductive LthreadFunc
  | lcore (func : LcoreFunction)
  | lthread (func : Lthread)
  deriving DecidableEq

/-- A slot of `threads`; it is free when `func` is `NULL`. -/
structure ThreadInfo where
  lcoreId : Int
  func : Option LthreadFunc
  deriving DecidableEq

/-- `THREAD_INFO_LIMIT`. -/
def threadInfoLimit : Nat := 16

/-- `thread_register`: the table afterwards, of `thread_info_size` slots, and the thread id. -/
def threadRegister (lcoreId : Int) (func : LthreadFunc) (threads : List ThreadInfo) :
    List ThreadInfo × Int :=
  let i := threads.findIdx fun tinfo => tinfo.func = none
  if i < threads.length then
    (threads.set i ⟨lcoreId, some func⟩, i)
  else if threads.length < threadInfoLimit then
    (threads ++ [⟨lcoreId, some func⟩], threads.length)
  else
    (threads, -1)

/-- `thread_unregister`, which does not check the id: none where it writes outside `threads`. -/
def threadUnregister (threadId : Int) (threads : List ThreadInfo) : Option (List ThreadInfo) :=
  if 0 ≤ threadId ∧ threadId < threadInfoLimit then
    some (threads.set threadId.toNat ⟨-1, none⟩)
  else
    none

/-- `thread_lookup_by_lcore`. -/
def threadLookupByLcore (func : LthreadFunc) (lcore : Int) (threads : List ThreadInfo) : Int :=
  forEach (fun i tinfo ret =>
    if tinfo.func = some func ∧ tinfo.lcoreId = lcore then (i : Int) else ret) 0 threads (-1)

/-- Slot `i` holds `func` on `lcore`. -/
def HasEntry (threads : List ThreadInfo) (i : Nat) (func : LthreadFunc) (lcore : Int) : Prop :=
  threads[i]? = some ⟨lcore, some func⟩

/-- No slot is free and the table cannot grow. -/
def ThreadsFull (threads : List ThreadInfo) : Prop :=
  threadInfoLimit ≤ threads.length ∧ ∀ tinfo ∈ threads, tinfo.func ≠ none

instance (threads : List ThreadInfo) (i : Nat) (func : LthreadFunc) (lcore : Int) :
    Decidable (HasEntry threads i func lcore) := inferInstanceAs (Decidable (_ = _))

instance (threads : List ThreadInfo) : Decidable (ThreadsFull threads) :=
  inferInstanceAs (Decidable (_ ∧ _))

/-! ## Registering -/

section
variable (lcoreId : Int) (func : LthreadFunc) (threads : List ThreadInfo)

/-- The new entry goes to a slot that held none, or the table is full and stays. -/
theorem threadRegister_cases :
    (ThreadsFull threads ∧ threadRegister lcoreId func threads = (threads, -1)) ∨
      ∃ i : Nat, ¬ThreadsFull threads ∧ (threadRegister lcoreId func threads).2 = i ∧
        (∀ tinfo, threads[i]? = some tinfo → tinfo.func = none) ∧
        ∀ j : Nat, (threadRegister lcoreId func threads).1[j]? =
          if j = i then some ⟨lcoreId, some func⟩ else threads[j]? := by
  by_cases free : threads.findIdx (fun tinfo => decide (tinfo.func = none)) < threads.length
  · refine .inr ⟨threads.findIdx (fun tinfo => decide (tinfo.func = none)), ?_, ?_, ?_, ?_⟩
    · intro full
      have found := List.findIdx_getElem (w := free)
      exact full.2 _ (List.getElem_mem free) (of_decide_eq_true found)
    · simp only [threadRegister, if_pos free]
    · intro tinfo at_
      have found := List.findIdx_getElem (w := free)
      rw [List.getElem?_eq_getElem free] at at_
      rw [← Option.some.inj at_]
      exact of_decide_eq_true found
    · intro j
      simp only [threadRegister, if_pos free, List.getElem?_set]
      split
      · next same => rw [if_pos same.symm]
      · next ne => rw [if_neg (Ne.symm ne)]
  · have taken : ∀ tinfo ∈ threads, tinfo.func ≠ none := by
      intro tinfo mem isFree
      exact free (List.findIdx_lt_length_of_exists ⟨tinfo, mem, by simp [isFree]⟩)
    by_cases room : threads.length < threadInfoLimit
    · refine .inr ⟨threads.length, fun full => by have := full.1; omega, ?_, ?_, ?_⟩
      · simp only [threadRegister, if_neg free, if_pos room]
      · simp
      · intro j
        simp only [threadRegister, if_neg free, if_pos room]
        rcases Nat.lt_trichotomy j threads.length with lt | rfl | gt
        · rw [List.getElem?_append_left lt, if_neg (by omega)]
        · simp
        · rw [List.getElem?_eq_none (by simp; omega), if_neg (by omega),
            List.getElem?_eq_none (by omega)]
    · refine .inl ⟨⟨by omega, taken⟩, ?_⟩
      simp only [threadRegister, if_neg free, if_neg room]

/-- A thread gets an id exactly when there is room for it. -/
theorem threadRegister_id :
    (threadRegister lcoreId func threads).2 = -1 ∧ ThreadsFull threads ∨
      ∃ i : Nat, (threadRegister lcoreId func threads).2 = i ∧ ¬ThreadsFull threads := by
  rcases threadRegister_cases lcoreId func threads with ⟨full, same⟩ | ⟨i, room, id, -, -⟩
  · exact .inl ⟨by rw [same], full⟩
  · exact .inr ⟨i, id, room⟩

/-- The id is that of no entry there was. -/
theorem HasEntry.ne_threadRegister {threads : List ThreadInfo} {i : Nat} {f : LthreadFunc}
    {lcore : Int} (entry : HasEntry threads i f lcore) :
    (threadRegister lcoreId func threads).2 ≠ i := by
  rcases threadRegister_cases lcoreId func threads with ⟨-, same⟩ | ⟨j, -, id, free, -⟩
  · rw [same]
    simp only
    omega
  · rw [id]
    rintro eq
    rw [Int.ofNat_inj.mp eq] at free
    have := free _ entry
    cases this

/-- Registering adds the entry under the id and changes no other. -/
theorem hasEntry_threadRegister (i : Nat) (f : LthreadFunc) (lcore : Int) :
    HasEntry (threadRegister lcoreId func threads).1 i f lcore ↔
      HasEntry threads i f lcore ∨
        ((threadRegister lcoreId func threads).2 = i ∧ f = func ∧ lcore = lcoreId) := by
  rcases threadRegister_cases lcoreId func threads with ⟨-, same⟩ | ⟨j, -, id, free, slots⟩
  · rw [same]
    have : (-1 : Int) ≠ i := by omega
    simp [this]
  · rw [HasEntry, slots, id]
    by_cases at_ : i = j
    · subst at_
      have unused : ¬HasEntry threads i f lcore := fun entry => by cases free _ entry
      simp only [if_pos, unused, false_or, Option.some.injEq, ThreadInfo.mk.injEq, true_and]
      constructor
      · rintro ⟨rfl, rfl⟩
        exact ⟨rfl, rfl⟩
      · rintro ⟨rfl, rfl⟩
        exact ⟨rfl, rfl⟩
    · have ne : (j : Int) ≠ i := by omega
      simp [at_, ne, HasEntry]

theorem threadRegister_length (bound : threads.length ≤ threadInfoLimit) :
    (threadRegister lcoreId func threads).1.length ≤ threadInfoLimit := by
  simp only [threadRegister]
  split
  · simpa using bound
  · split
    · next room =>
        rw [List.length_append, List.length_singleton]
        exact room
    · exact bound

end

/-! ## Unregistering and looking up -/

theorem HasEntry.lt_length {threads : List ThreadInfo} {i : Nat} {f : LthreadFunc}
    {lcore : Int} (entry : HasEntry threads i f lcore) : i < threads.length :=
  (List.getElem?_eq_some_iff.mp entry).1

/-- Unregistering frees the slot of the id and changes no other. -/
theorem threadUnregister_spec {threads : List ThreadInfo} {i : Nat} (h : i < threadInfoLimit) :
    ∃ threads', threadUnregister i threads = some threads' ∧ threads'.length = threads.length ∧
      ∀ j f lcore, HasEntry threads' j f lcore ↔ HasEntry threads j f lcore ∧ j ≠ i := by
  refine ⟨threads.set i ⟨-1, none⟩, ?_, List.length_set, ?_⟩
  · rw [threadUnregister, if_pos (by omega), Int.toNat_natCast]
  · intro j f lcore
    rw [HasEntry, HasEntry, List.getElem?_set]
    split
    · next same =>
        subst same
        split <;> simp
    · next ne => simp [Ne.symm ne]

/-- A lookup finds the only entry there is. -/
theorem threadLookupByLcore_eq {threads : List ThreadInfo} {func : LthreadFunc} {lcore : Int}
    {i : Nat} (only : ∀ j, HasEntry threads j func lcore ↔ j = i) :
    threadLookupByLcore func lcore threads = i := by
  have found := forEach_found
    (fun tinfo : ThreadInfo => tinfo.func = some func ∧ tinfo.lcoreId = lcore)
    (fun i => (i : Int)) 0 threads (-1)
  rcases found with ⟨-, none_⟩ | ⟨j, tinfo, at_, ⟨same, here⟩, ret⟩
  · exact absurd ⟨rfl, rfl⟩ (none_ i _ ((only i).mpr rfl))
  · have entry : HasEntry threads j func lcore := by
      rw [HasEntry, at_, ← same, ← here]
    rw [threadLookupByLcore, ret, (only j).mp entry, Nat.zero_add]

end Sdplane
