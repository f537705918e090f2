import Sdplane.Thread.Sound

/-!
# The indices into the table of threads

Which elements of `threads[]` and `thread_counters[]` the functions of `thread_info.c:20-100`
touch, and with which thread ids they are called: `thread_unregister` is the only one that
does not look at the id it is given.
-/

namespace Sdplane

/-- An element of `threads` or of `thread_counters`. -/
inductive ThreadsElement
  | thread (i : Int)
  | counter (i : Int)

def ThreadsElement.index : ThreadsElement → Int
  | .thread i => i
  | .counter i => i

/-- The index is in `[0, THREAD_INFO_LIMIT)`. -/
def ThreadsElement.InBounds (e : ThreadsElement) : Prop :=
  0 ≤ e.index ∧ e.index < threadInfoLimit

/-! ## What the functions touch -/

/-- `thread_register`: the slots up to the first free one, then the one of the id. -/
def threadRegisterElements (lcoreId : Int) (func : LthreadFunc) (threads : List ThreadInfo) :
    List ThreadsElement :=
  let scanned := threads.findIdx (fun tinfo => tinfo.func = none) + 1
  let threadId := (threadRegister lcoreId func threads).2
  (List.range (min scanned threads.length)).map (fun i => .thread i) ++
    if 0 ≤ threadId then [.thread threadId] else []

/-- `thread_unregister`. -/
def threadUnregisterElements (threadId : Int) : List ThreadsElement := [.thread threadId]

/-- `thread_register_loop_counter`. -/
def threadRegisterLoopCounterElements (threadId : Int) : List ThreadsElement :=
  if threadId < 0 ∨ threadInfoLimit ≤ threadId then [] else [.thread threadId, .counter threadId]

/-- `thread_unregister_loop_counter`, which makes the same test. -/
def threadUnregisterLoopCounterElements (threadId : Int) : List ThreadsElement :=
  if threadId < 0 ∨ threadInfoLimit ≤ threadId then [] else [.thread threadId, .counter threadId]

/-- `thread_lookup`. -/
def threadLookup (func : LthreadFunc) (threads : List ThreadInfo) : Int :=
  forEach (fun i tinfo ret => if tinfo.func = some func then (i : Int) else ret) 0 threads (-1)

/-! ## Who calls them -/

/-- An operation of the lthread core; `vty_shell` passes on the id it got when it was
    connected. -/
def Op.elements (eal : Eal) (s : Registry) : Op → List ThreadsElement
  | .startLcore lcore =>
      match s.lcoreWorkers lcore with
      | none => []
      | some func =>
          if lcore = eal.lthreadCore then []
          else threadRegisterElements lcore (.lcore func) s.threads
  | .lthreadCreate func => threadRegisterElements eal.lthreadCore (.lthread func) s.threads
  | .vtyConnect =>
      match (List.range vtyClientMax).find? fun i => (s.clients i).isNone with
      | none => []
      | some _ =>
          threadRegisterElements eal.lthreadCore (.lthread .vtyShell) s.threads ++
            threadRegisterLoopCounterElements
              (threadRegister eal.lthreadCore (.lthread .vtyShell) s.threads).2
  | .vtyExit client =>
      match s.clients client with
      | none => []
      | some threadId =>
          threadUnregisterLoopCounterElements threadId ++ threadUnregisterElements threadId
  | _ => []

/-- A worker on its way to its loop. -/
def enterElements (s : Registry) (lcore nRxPort : Nat) : List ThreadsElement :=
  match s.lcores lcore with
  | .launched .tapHandler _ =>
      threadRegisterLoopCounterElements (threadLookupByLcore (.lcore .tapHandler) lcore s.threads)
  | .launched .l2Repeater _ =>
      if nRxPort = 0 then []
      else threadRegisterLoopCounterElements
        (threadLookupByLcore (.lcore .l2Repeater) lcore s.threads)
  | .launched .nettlpThread _ =>
      threadRegisterLoopCounterElements (threadLookup (.lcore .nettlpThread) s.threads)
  | _ => []

/-- An lthread on its way to its loop; `startup_config` counts no loops, and `vty_shell` has
    its id from `thread_register`. -/
def lthreadEnterElements (s : Registry) : Lthread → List ThreadsElement
  | .startupConfig | .vtyShell => []
  | func => threadRegisterLoopCounterElements (threadLookup (.lthread func) s.threads)

/-- What happens next: an action of the registry's system, or an lthread gets to its loop. -/
inductive ThreadsEvent
  | action (act : Action)
  | lthreadEnter (func : Lthread)

namespace Threads

variable (eal : Eal) (s : Threads)

def event : ThreadsEvent → Option Threads
  | .action act => s.step eal act
  | .lthreadEnter _ => some s

/-- All elements the event touches. -/
def elements : ThreadsEvent → List ThreadsElement
  | .action .next =>
      match s.pending with
      | [] => []
      | op :: _ => op.elements eal s.registry
  | .action (.enter lcore nRxPort) => enterElements s.registry lcore nRxPort
  | .action _ => []
  | .lthreadEnter func => lthreadEnterElements s.registry func

/-- No session ends that was accepted when the table was full. -/
def EndsRegistered : ThreadsEvent → Prop
  | .action .next => ∀ client, s.pending.head? = some (.vtyExit client) →
      s.registry.clients client ≠ some (-1)
  | _ => True

end Threads

/-! ## The bounds -/

/-- Whatever the id is, it is looked at first. -/
theorem loopCounterElements_inBounds (threadId : Int) {e : ThreadsElement}
    (mem : e ∈ threadRegisterLoopCounterElements threadId) : e.InBounds := by
  rw [threadRegisterLoopCounterElements] at mem
  split at mem
  · cases mem
  · next bounds =>
      rcases List.mem_pair.mp mem with rfl | rfl <;>
        exact ⟨by simp only [ThreadsElement.index]; omega,
          by simp only [ThreadsElement.index]; omega⟩

theorem threadRegisterElements_inBounds (lcoreId : Int) (func : LthreadFunc)
    {threads : List ThreadInfo} (size : threads.length ≤ threadInfoLimit) {e : ThreadsElement}
    (mem : e ∈ threadRegisterElements lcoreId func threads) : e.InBounds := by
  rcases List.mem_append.mp mem with scan | write
  · obtain ⟨i, inside, rfl⟩ := List.mem_map.mp scan
    rw [List.mem_range] at inside
    exact ⟨by simp only [ThreadsElement.index]; omega, by simp only [ThreadsElement.index]; omega⟩
  · split at write
    · next registered =>
        rw [List.mem_singleton.mp write]
        refine ⟨registered, ?_⟩
        rcases threadRegister_id lcoreId func threads with ⟨none_, -⟩ | ⟨i, id, -⟩
        · simp only [ThreadsElement.index]
          omega
        · -- the new entry lies in the table, which has not grown too long
          have entry : HasEntry (threadRegister lcoreId func threads).1 i func lcoreId :=
            (hasEntry_threadRegister ..).mpr (.inr ⟨id, rfl, rfl⟩)
          have inside := entry.lt_length
          have length := threadRegister_length lcoreId func threads size
          simp only [ThreadsElement.index]
          omega
    · cases write

/-- The end of a `vty_shell` stays inside exactly when it has an id. -/
theorem vtyExit_inBounds_iff {s : Registry} (clients : ClientsOk s) (eal : Eal) (client : Nat) :
    (∀ e ∈ (Op.vtyExit client).elements eal s, e.InBounds) ↔ s.clients client ≠ some (-1) := by
  rw [Op.elements]
  cases has : s.clients client with
  | none => simp
  | some threadId =>
      rcases clients.entry client threadId has with rfl | ⟨i, rfl, lcore, entry⟩
      · refine iff_of_false (fun all => ?_) fun ne => ne rfl
        have outside := (all (.thread (-1)) (List.mem_append_right _ (List.mem_singleton.mpr rfl))).1
        simp only [ThreadsElement.index] at outside
        omega
      · have inside := Nat.lt_of_lt_of_le entry.lt_length clients.size
        refine iff_of_true (fun e mem => ?_) fun none_ => ?_
        · rcases List.mem_append.mp mem with counter | thread
          · exact loopCounterElements_inBounds i counter
          · rw [List.mem_singleton.mp thread]
            exact ⟨by simp only [ThreadsElement.index]; omega,
              by simp only [ThreadsElement.index]; omega⟩
        · have := Option.some.inj none_
          omega

/-- Every other operation stays inside. -/
theorem op_inBounds {s : Registry} (clients : ClientsOk s) (eal : Eal) {op : Op}
    (other : ∀ client, op ≠ .vtyExit client) : ∀ e ∈ op.elements eal s, e.InBounds := by
  intro e mem
  cases op with
  | startLcore lcore =>
      rw [Op.elements] at mem
      split at mem
      · cases mem
      · split at mem
        · cases mem
        · exact threadRegisterElements_inBounds _ _ clients.size mem
  | lthreadCreate func => exact threadRegisterElements_inBounds _ _ clients.size mem
  | vtyConnect =>
      rw [Op.elements] at mem
      split at mem
      · cases mem
      · rcases List.mem_append.mp mem with register | counter
        · exact threadRegisterElements_inBounds _ _ clients.size register
        · exact loopCounterElements_inBounds _ counter
  | vtyExit client => exact absurd rfl (other client)
  | forceStop | waitLcore | setFunc | forceQuit => cases mem

theorem enterElements_inBounds (s : Registry) (lcore nRxPort : Nat) :
    ∀ e ∈ enterElements s lcore nRxPort, e.InBounds := by
  intro e mem
  rw [enterElements] at mem
  split at mem
  · exact loopCounterElements_inBounds _ mem
  · split at mem
    · cases mem
    · exact loopCounterElements_inBounds _ mem
  · exact loopCounterElements_inBounds _ mem
  · cases mem

theorem lthreadEnterElements_inBounds (s : Registry) (func : Lthread) :
    ∀ e ∈ lthreadEnterElements s func, e.InBounds := by
  intro e mem
  cases func with
  | startupConfig | vtyShell => cases mem
  | vtyServer | consoleShell | statCollector | ribManager =>
      exact loopCounterElements_inBounds _ mem

theorem Threads.elements_inBounds_iff {s : Threads} (clients : ClientsOk s.registry) (eal : Eal)
    (event : ThreadsEvent) :
    (∀ e ∈ s.elements eal event, e.InBounds) ↔ s.EndsRegistered event := by
  cases event with
  | lthreadEnter func => exact iff_of_true (lthreadEnterElements_inBounds s.registry func) trivial
  | action act =>
      cases act with
      | next =>
          rw [elements, EndsRegistered]
          cases pending : s.pending with
          | nil => simp
          | cons op ops =>
              by_cases exit : ∃ client, op = .vtyExit client
              · obtain ⟨client, rfl⟩ := exit
                rw [vtyExit_inBounds_iff clients]
                constructor
                · rintro ne client' same
                  cases same
                  exact ne
                · exact fun ok => ok client rfl
              · refine iff_of_true (op_inBounds clients eal fun client same => exit ⟨client, same⟩)
                  fun client same => ?_
                exact absurd ⟨client, Option.some.inj same⟩ exit
      | enter lcore nRxPort =>
          exact iff_of_true (enterElements_inBounds s.registry lcore nRxPort) trivial
      | call | leave | sigterm => exact iff_of_true (fun e mem => by cases mem) trivial

/-- Over every run from the start of the process: all indices are inside exactly when no
    session ends that was accepted when the table was full. -/
theorem threads_inBounds_iff (eal : Eal) (events : List ThreadsEvent) :
    EachStep (Threads.event eal) (fun s event => ∀ e ∈ s.elements eal event, e.InBounds)
        (Threads.init eal) events ↔
      EachStep (Threads.event eal) Threads.EndsRegistered (Threads.init eal) events := by
  have base : ∀ (s : Threads) event s', ClientsOk s.registry → s.event eal event = some s' →
      ClientsOk s'.registry := by
    intro s event s' clients taken
    cases event with
    | action act => exact clientsOk_step s act s' clients taken
    | lthreadEnter func =>
        cases taken
        exact clients
  have agree : ∀ (s : Threads) event, ClientsOk s.registry →
      ((∀ e ∈ s.elements eal event, e.InBounds) ↔ s.EndsRegistered event) :=
    fun s event clients => s.elements_inBounds_iff clients eal event
  exact eachStep_congr base agree events (Threads.init eal) (clientsOk_init eal)

/-- Fifteen lthreads fill the table; then a session is accepted, and left. -/
theorem threads_inBounds_not :
    ¬∀ (eal : Eal) (events : List ThreadsEvent),
      EachStep (Threads.event eal) (fun s event => ∀ e ∈ s.elements eal event, e.InBounds)
        (Threads.init eal) events := by
  intro always
  have last := (always ⟨0, 1, fun _ => true⟩
    ((List.replicate 15 [.action (.call (.lthreadCreate .statCollector)), .action .next]).flatten ++
      [.action (.call .vtyConnect), .action .next, .action (.call (.vtyExit 0))] ++
        [.action .next])).last rfl rfl
  have outside := (last (.thread (-1)) (List.mem_append_right _ (List.mem_singleton.mpr rfl))).1
  simp only [ThreadsElement.index] at outside
  omega

end Sdplane
