import Sdplane.Thread.Registry

/-!
# Entries of running workers

`start_lcore` registers a worker and drops its thread id; nothing unregisters it. The table
is right as long as every `start_lcore` that registers a worker also launches it, and the
other way round, and no worker returns.
-/

namespace Sdplane

/-- The table has one entry for each running worker and none for others, a worker that looks
    itself up finds its thread id, and no write went outside the table. -/
structure RegistrySound (s : Registry) : Prop where
  registered : ∀ (lcore : Nat) func threadId, (s.lcores lcore).worker = some (func, threadId) →
    ∃! i : Nat, HasEntry s.threads i (.lcore func) lcore
  stopped : ∀ (lcore : Nat) func i, HasEntry s.threads i (.lcore func) lcore →
    ∃ threadId, (s.lcores lcore).worker = some (func, threadId)
  found : ∀ (lcore : Nat) func threadId, (s.lcores lcore).worker = some (func, threadId) →
    threadLookupByLcore (.lcore func) lcore s.threads = threadId
  intact : s.intact = true

/-- The entries of workers are those of the running ones, under their thread ids. -/
structure RegistryExact (s : Registry) : Prop where
  entry_iff : ∀ (lcore : Nat) func (i : Nat), HasEntry s.threads i (.lcore func) lcore ↔
    (s.lcores lcore).worker = some (func, (i : Int))
  slot : ∀ lcore func threadId, (s.lcores lcore).worker = some (func, threadId) →
    ∃ i : Nat, threadId = i
  intact : s.intact = true

/-- The lookup finds the one entry of a running worker, so its thread id is that slot. -/
theorem RegistrySound.slot {s : Registry} (sound : RegistrySound s) {lcore : Nat}
    {func : LcoreFunction} {threadId : Int}
    (running : (s.lcores lcore).worker = some (func, threadId)) :
    ∃ i : Nat, threadId = i ∧ HasEntry s.threads i (.lcore func) lcore ∧
      ∀ j, HasEntry s.threads j (.lcore func) lcore → j = i := by
  obtain ⟨i, entry, only⟩ := sound.registered lcore func threadId running
  have lookup : threadLookupByLcore (.lcore func) lcore s.threads = i :=
    threadLookupByLcore_eq fun j => ⟨only j, fun same => same ▸ entry⟩
  refine ⟨i, ?_, entry, only⟩
  rw [← sound.found lcore func threadId running, lookup]

theorem RegistrySound.toExact {s : Registry} (sound : RegistrySound s) : RegistryExact s := by
  refine ⟨?_, ?_, sound.intact⟩
  · intro lcore func i
    constructor
    · intro entry
      obtain ⟨threadId, running⟩ := sound.stopped lcore func i entry
      obtain ⟨j, same, -, only⟩ := sound.slot running
      rw [running, same, only i entry]
    · intro running
      obtain ⟨j, same, entry, -⟩ := sound.slot running
      rw [Int.ofNat_inj.mp same]
      exact entry
  · intro lcore func threadId running
    obtain ⟨i, same, -⟩ := sound.slot running
    exact ⟨i, same⟩

theorem RegistryExact.toSound {s : Registry} (h : RegistryExact s) : RegistrySound s := by
  have only : ∀ (lcore : Nat) func (i : Nat), (s.lcores lcore).worker = some (func, (i : Int)) →
      ∀ j, HasEntry s.threads j (.lcore func) lcore ↔ j = i := by
    intro lcore func i running j
    rw [h.entry_iff, running]
    simp only [Option.some.injEq, Prod.mk.injEq, true_and]
    omega
  refine ⟨?_, ?_, ?_, h.intact⟩
  · intro lcore func threadId running
    obtain ⟨i, rfl⟩ := h.slot lcore func threadId running
    exact ⟨i, (only lcore func i running i).mpr rfl,
      fun j entry => (only lcore func i running j).mp entry⟩
  · intro lcore func i entry
    exact ⟨i, (h.entry_iff lcore func i).mp entry⟩
  · intro lcore func threadId running
    obtain ⟨i, rfl⟩ := h.slot lcore func threadId running
    exact threadLookupByLcore_eq (only lcore func i running)

theorem registrySound_iff_exact (s : Registry) : RegistrySound s ↔ RegistryExact s :=
  ⟨RegistrySound.toExact, RegistryExact.toSound⟩

/-! ## The condition -/

/-- `start_lcore` launches the worker exactly when it registers it. -/
def StartOk (eal : Eal) (s : Registry) (lcore : Nat) : Prop :=
  s.lcoreWorkers lcore ≠ none → lcore ≠ eal.lthreadCore →
    ((eal.enabled lcore ∧ s.lcores lcore = .wait) ↔ ¬ThreadsFull s.threads)

/-- The operation starts no worker amiss, and ends no `vty_shell` that found no slot. -/
def OpOk (eal : Eal) (s : Registry) : Op → Prop
  | .startLcore lcore => StartOk eal s lcore
  | .vtyExit client => s.clients client ≠ some (-1)
  | _ => True

/-- The operation is as it should be, and no worker returns. -/
def ThreadsOk (eal : Eal) (s : Threads) : Action → Prop
  | .next => ∀ op ∈ s.pending.head?, OpOk eal s.registry op
  | .enter lcore nRxPort =>
      nRxPort = 0 → ∀ threadId, s.registry.lcores lcore ≠ .launched .l2Repeater threadId
  | .leave _ => False
  | _ => True

/-! ## Clients -/

/-- The thread id of each `vty_shell` is that of its own entry, or it has none. -/
structure ClientsOk (s : Registry) : Prop where
  size : s.threads.length ≤ threadInfoLimit
  entry : ∀ client threadId, s.clients client = some threadId → threadId = -1 ∨
    ∃ i : Nat, threadId = i ∧ ∃ lcore, HasEntry s.threads i (.lthread .vtyShell) lcore
  distinct : ∀ client client' (i : Nat), s.clients client = some (i : Int) →
    s.clients client' = some (i : Int) → client = client'

namespace ClientsOk

variable {s s' : Registry}

theorem congr (h : ClientsOk s) (threads : s'.threads = s.threads)
    (clients : s'.clients = s.clients) : ClientsOk s' := by
  obtain ⟨size, entry, distinct⟩ := h
  rw [← threads] at size
  simp only [← threads, ← clients] at entry distinct
  exact ⟨size, entry, distinct⟩

/-- Registering a thread. -/
theorem register (h : ClientsOk s) {lcoreId : Int} {func : LthreadFunc}
    (threads : s'.threads = (threadRegister lcoreId func s.threads).1)
    (clients : s'.clients = s.clients) : ClientsOk s' where
  size := threads ▸ threadRegister_length lcoreId func s.threads h.size
  entry := by
    intro client threadId has
    rw [clients] at has
    refine (h.entry client threadId has).imp id ?_
    rintro ⟨i, same, lcore, entry⟩
    refine ⟨i, same, lcore, ?_⟩
    rw [threads]
    exact (hasEntry_threadRegister lcoreId func s.threads i _ lcore).mpr (.inl entry)
  distinct := clients ▸ h.distinct

theorem vtyConnect (h : ClientsOk s) (eal : Eal) : ClientsOk (s.vtyConnect eal) := by
  simp only [Registry.vtyConnect]
  split
  · exact h
  · next clientId _ =>
      have base : ClientsOk { s with
          threads := (threadRegister eal.lthreadCore (.lthread .vtyShell) s.threads).1 } :=
        h.register rfl rfl
      have added := fun i => hasEntry_threadRegister eal.lthreadCore (.lthread .vtyShell)
        s.threads i (.lthread .vtyShell) eal.lthreadCore
      have new : ∀ client (i : Nat), s.clients client = some (i : Int) →
          (threadRegister eal.lthreadCore (.lthread .vtyShell) s.threads).2 ≠ i := by
        intro client i has
        rcases h.entry client i has with none_ | ⟨j, same, lcore, entry⟩
        · omega
        · rw [same]
          exact entry.ne_threadRegister _ _
      refine ⟨base.size, ?_, ?_⟩
      · intro client threadId has
        simp only [Function.update_apply] at has
        split at has
        · cases has
          rcases threadRegister_id eal.lthreadCore (.lthread .vtyShell) s.threads with
            ⟨none_, -⟩ | ⟨i, id, -⟩
          · exact .inl none_
          · exact .inr ⟨i, id, _, (added i).mpr (.inr ⟨id, rfl, rfl⟩)⟩
        · exact base.entry client threadId has
      · intro client client' i has has'
        simp only [Function.update_apply] at has has'
        split at has <;> split at has'
        · next same same' => rw [same, same']
        · exact absurd (Option.some.inj has) (new client' i has')
        · exact absurd (Option.some.inj has') (new client i has)
        · exact h.distinct client client' i has has'

/-- A `vty_shell` ends: the slot it frees is its own, or it has none. -/
theorem vtyExit_cases (h : ClientsOk s) (client : Nat) :
    (s.clients client = none ∧ s.vtyExit client = s) ∨
      (s.clients client = some (-1) ∧ s.vtyExit client =
        { s with clients := Function.update s.clients client none, intact := false }) ∨
      ∃ (i : Nat) (threads : List ThreadInfo), s.clients client = some (i : Int) ∧
        s.vtyExit client =
          { s with clients := Function.update s.clients client none, threads := threads } ∧
        (∃ lcore, HasEntry s.threads i (.lthread .vtyShell) lcore) ∧
        threads.length = s.threads.length ∧
        ∀ j f lcore, HasEntry threads j f lcore ↔ HasEntry s.threads j f lcore ∧ j ≠ i := by
  cases has : s.clients client with
  | none => exact .inl ⟨rfl, by rw [Registry.vtyExit, has]⟩
  | some threadId =>
      rcases h.entry client threadId has with rfl | ⟨i, rfl, lcore, entry⟩
      · refine .inr (.inl ⟨rfl, ?_⟩)
        simp only [Registry.vtyExit, has]
        rfl
      · have bound := Nat.lt_of_lt_of_le entry.lt_length h.size
        obtain ⟨threads, freed, length, others⟩ := @threadUnregister_spec s.threads i bound
        refine .inr (.inr ⟨i, threads, rfl, ?_, ⟨lcore, entry⟩, length, others⟩)
        simp only [Registry.vtyExit, has, freed]

theorem vtyExit (h : ClientsOk s) (client : Nat) : ClientsOk (s.vtyExit client) := by
  have left : ∀ c threadId, Function.update s.clients client none c = some threadId →
      c ≠ client ∧ s.clients c = some threadId := by
    intro c threadId has
    rw [Function.update_apply] at has
    split at has
    · cases has
    · next ne => exact ⟨ne, has⟩
  have distinct : ∀ c c' (i : Nat), Function.update s.clients client none c = some (i : Int) →
      Function.update s.clients client none c' = some (i : Int) → c = c' :=
    fun c c' i has has' => h.distinct c c' i (left c i has).2 (left c' i has').2
  rcases h.vtyExit_cases client with ⟨-, same⟩ | ⟨-, same⟩ | ⟨i, threads, at_, same, -, length, others⟩
  · rwa [same]
  · rw [same]
    exact ⟨h.size, fun c threadId has => h.entry c threadId (left c threadId has).2, distinct⟩
  · rw [same]
    refine ⟨length ▸ h.size, ?_, distinct⟩
    intro c threadId has
    obtain ⟨ne, before⟩ := left c threadId has
    refine (h.entry c threadId before).imp id ?_
    rintro ⟨j, rfl, lcore, entry⟩
    refine ⟨j, rfl, lcore, (others j _ lcore).mpr ⟨entry, ?_⟩⟩
    rintro rfl
    exact ne (h.distinct c client j before at_)

end ClientsOk

/-! ## Operations -/

/-- `start_lcore` does nothing to table and lcores, or registers the worker and tries to
    launch it. -/
theorem startLcore_cases (eal : Eal) (s : Registry) (lcore : Nat) :
    ((s.lcoreWorkers lcore = none ∨ lcore = eal.lthreadCore) ∧
        ∃ forceStop, s.startLcore eal lcore = { s with forceStop := forceStop }) ∨
      ∃ func forceStop, s.lcoreWorkers lcore = some func ∧ lcore ≠ eal.lthreadCore ∧
        s.startLcore eal lcore = Registry.remoteLaunch eal
          { s with
            forceStop := forceStop
            threads := (threadRegister lcore (.lcore func) s.threads).1 }
          func (threadRegister lcore (.lcore func) s.threads).2 lcore := by
  cases worker : s.lcoreWorkers lcore with
  | none => exact .inl ⟨.inl rfl, s.forceStop, by simp only [Registry.startLcore, worker]⟩
  | some func =>
      by_cases main : lcore = eal.lthreadCore
      · exact .inl ⟨.inr main, _, by simp only [Registry.startLcore, worker, if_pos main]; rfl⟩
      · exact .inr ⟨func, _, rfl, main, by simp only [Registry.startLcore, worker, if_neg main]; rfl⟩

namespace RegistryExact

variable {s s' : Registry}

/-- What changes no entry of a worker and no worker. -/
theorem congr (h : RegistryExact s)
    (entries : ∀ i func (lcore : Nat), HasEntry s'.threads i (.lcore func) lcore ↔
      HasEntry s.threads i (.lcore func) lcore)
    (workers : ∀ lcore, (s'.lcores lcore).worker = (s.lcores lcore).worker)
    (intact : s'.intact = s.intact) : RegistryExact s' := by
  refine ⟨?_, ?_, intact.trans h.intact⟩
  · simpa only [entries, workers] using h.entry_iff
  · simpa only [workers] using h.slot

/-- The entry of a worker that returns stays behind. -/
theorem not_of_return (h : RegistryExact s) {lcore : Nat} {func : LcoreFunction} {threadId : Int}
    (running : (s.lcores lcore).worker = some (func, threadId)) (threads : s'.threads = s.threads)
    (returned : (s'.lcores lcore).worker = none) : ¬RegistryExact s' := by
  intro h'
  obtain ⟨i, rfl⟩ := h.slot lcore func threadId running
  have entry : HasEntry s'.threads i (.lcore func) lcore := by
    rw [threads]
    exact (h.entry_iff lcore func i).mpr running
  rw [h'.entry_iff, returned] at entry
  cases entry

/-- A thread that is no worker is registered. -/
theorem lthread (h : RegistryExact s) {lcoreId : Int} {func : Lthread}
    (threads : s'.threads = (threadRegister lcoreId (.lthread func) s.threads).1)
    (lcores : s'.lcores = s.lcores) (intact : s'.intact = s.intact) : RegistryExact s' := by
  refine h.congr ?_ ?_ intact
  · intro i f lcore
    rw [threads, hasEntry_threadRegister]
    simp
  · intro lcore
    rw [lcores]

/-- A worker is registered and launched, where there is room and the lcore waits for it. -/
theorem launch (h : RegistryExact s) {lcore i : Nat} {func : LcoreFunction}
    (waits : s.lcores lcore = .wait)
    (id : (threadRegister lcore (.lcore func) s.threads).2 = i)
    (threads : s'.threads = (threadRegister lcore (.lcore func) s.threads).1)
    (lcores : s'.lcores = Function.update s.lcores lcore (.launched func i))
    (intact : s'.intact = s.intact) : RegistryExact s' := by
  refine ⟨?_, ?_, intact.trans h.intact⟩
  · intro lcore' func' j
    rw [threads, hasEntry_threadRegister, h.entry_iff, id, lcores, Function.update_apply]
    split
    · next same =>
        rw [same, waits]
        simp only [LcoreState.worker, Option.some.injEq, Prod.mk.injEq, LthreadFunc.lcore.injEq]
        constructor
        · rintro (none_ | ⟨slot, rfl, -⟩)
          · cases none_
          · exact ⟨rfl, slot⟩
        · rintro ⟨rfl, slot⟩
          exact .inr ⟨slot, rfl, trivial⟩
    · next ne =>
        constructor
        · rintro (old | ⟨-, -, same⟩)
          · exact old
          · exact absurd (Int.ofNat_inj.mp same) ne
        · exact .inl
  · intro lcore' func' threadId running
    rw [lcores, Function.update_apply] at running
    split at running
    · cases running
      exact ⟨i, rfl⟩
    · exact h.slot lcore' func' threadId running

/-- The launch is as it should be exactly when the worker was registered for it. -/
theorem startLcore_iff (h : RegistryExact s) (eal : Eal) (lcore : Nat) :
    RegistryExact (s.startLcore eal lcore) ↔ StartOk eal s lcore := by
  rcases startLcore_cases eal s lcore with ⟨idle, forceStop, same⟩ |
    ⟨func, forceStop, worker, main, same⟩
  · have ok : StartOk eal s lcore := fun has ne => by
      rcases idle with none_ | main
      · exact absurd none_ has
      · exact absurd main ne
    rw [same]
    exact iff_of_true (h.congr (fun _ _ _ => .rfl) (fun _ => rfl) rfl) ok
  · have condition : StartOk eal s lcore ↔
        ((eal.enabled lcore ∧ s.lcores lcore = .wait) ↔ ¬ThreadsFull s.threads) := by
      simp [StartOk, worker, main]
    rw [same, condition, Registry.remoteLaunch]
    rcases threadRegister_cases lcore (.lcore func) s.threads with ⟨full, kept⟩ |
      ⟨i, room, id, -, -⟩
    · split
      · next launches =>
          -- launched without an entry
          refine iff_of_false ?_ fun ok => ok.mp launches full
          intro h'
          have running := h'.slot lcore func (-1) (by simp [kept, LcoreState.worker])
          obtain ⟨i, none_⟩ := running
          omega
      · next refused =>
          refine iff_of_true ?_ (iff_of_false refused fun room => room full)
          exact h.congr (fun _ _ _ => by rw [kept]) (fun _ => rfl) rfl
    · split
      · next launches =>
          exact iff_of_true (h.launch launches.2 id rfl (by rw [id]) rfl)
            (iff_of_true launches room)
      · next refused =>
          -- an entry for a worker that was not launched
          refine iff_of_false ?_ fun ok => refused (ok.mpr room)
          intro h'
          have entry : HasEntry (threadRegister lcore (.lcore func) s.threads).1 i
              (.lcore func) lcore :=
            (hasEntry_threadRegister ..).mpr (.inr ⟨id, rfl, rfl⟩)
          have running := (h'.entry_iff lcore func i).mp entry
          exact ((h.entry_iff lcore func i).mpr running).ne_threadRegister _ _ id

theorem vtyConnect (h : RegistryExact s) (eal : Eal) : RegistryExact (s.vtyConnect eal) := by
  simp only [Registry.vtyConnect]
  split
  · exact h
  · exact h.lthread rfl rfl rfl

theorem vtyExit_iff (h : RegistryExact s) (clients : ClientsOk s) (client : Nat) :
    RegistryExact (s.vtyExit client) ↔ s.clients client ≠ some (-1) := by
  rcases clients.vtyExit_cases client with ⟨none_, same⟩ | ⟨none_, same⟩ |
    ⟨i, threads, at_, same, ⟨lcore, entry⟩, -, others⟩
  · rw [same, none_]
    exact iff_of_true h (by simp)
  · rw [same]
    refine iff_of_false (fun h' => ?_) fun ne => ne none_
    cases h'.intact
  · rw [same, at_]
    refine iff_of_true (h.congr ?_ (fun _ => rfl) rfl) ?_
    · intro j func lcore'
      rw [others]
      refine and_iff_left_of_imp fun worker same => ?_
      rw [same, HasEntry, show s.threads[i]? = _ from entry] at worker
      cases worker
    · intro none_
      have := Option.some.inj none_
      omega

end RegistryExact

/-! ## Steps -/

theorem ClientsOk.exec {s s' : Registry} (h : ClientsOk s) {eal : Eal} {op : Op}
    (done : s.exec eal op = some s') : ClientsOk s' := by
  cases op with
  | startLcore lcore =>
      cases done
      rcases startLcore_cases eal s lcore with ⟨-, _, same⟩ | ⟨func, forceStop, -, -, same⟩
      · exact same ▸ h.congr rfl rfl
      · rw [same, Registry.remoteLaunch]
        split
        · exact h.register rfl rfl
        · exact h.register rfl rfl
  | waitLcore lcore =>
      simp only [Registry.exec, Option.ite_none_right_eq_some, Option.some.injEq] at done
      exact done.2 ▸ h
  | lthreadCreate func =>
      cases done
      exact h.register rfl rfl
  | vtyConnect =>
      cases done
      exact h.vtyConnect eal
  | vtyExit client =>
      cases done
      exact h.vtyExit client
  | forceStop | setFunc | forceQuit =>
      cases done
      exact h.congr rfl rfl

theorem RegistryExact.exec_iff {s s' : Registry} (h : RegistryExact s) (clients : ClientsOk s)
    {eal : Eal} {op : Op} (done : s.exec eal op = some s') :
    RegistryExact s' ↔ OpOk eal s op := by
  cases op with
  | startLcore lcore =>
      cases done
      exact h.startLcore_iff eal lcore
  | waitLcore lcore =>
      simp only [Registry.exec, Option.ite_none_right_eq_some, Option.some.injEq] at done
      exact iff_of_true (done.2 ▸ h) trivial
  | lthreadCreate func =>
      cases done
      exact iff_of_true (h.lthread rfl rfl rfl) trivial
  | vtyConnect =>
      cases done
      exact iff_of_true (h.vtyConnect eal) trivial
  | vtyExit client =>
      cases done
      exact h.vtyExit_iff clients client
  | forceStop | setFunc | forceQuit =>
      cases done
      exact iff_of_true (h.congr (fun _ _ _ => .rfl) (fun _ => rfl) rfl) trivial

/-- A worker that enters its loop stays the lcore's worker; one that returns is none. -/
theorem enter_cases {s s' : Registry} {lcore nRxPort : Nat}
    (done : s.enter lcore nRxPort = some s') :
    ∃ func threadId next, s.lcores lcore = .launched func threadId ∧
      s' = { s with lcores := Function.update s.lcores lcore next } ∧
      (func = .l2Repeater ∧ nRxPort = 0 ∧ next = .wait ∨
        ¬(func = .l2Repeater ∧ nRxPort = 0) ∧ next = .looping func threadId) := by
  rw [Registry.enter] at done
  split at done
  · next func threadId at_ =>
      cases done
      refine ⟨func, threadId, _, at_, rfl, ?_⟩
      split
      · next returns => exact .inl ⟨returns.1, returns.2, rfl⟩
      · next enters => exact .inr ⟨enters, rfl⟩
  · cases done

theorem leave_cases {eal : Eal} {s s' : Registry} {lcore : Nat}
    (done : s.leave eal lcore = some s') :
    ∃ func threadId, s.lcores lcore = .looping func threadId ∧
      s' = { s with lcores := Function.update s.lcores lcore .wait } := by
  rw [Registry.leave] at done
  split at done
  · next func threadId at_ =>
      split at done
      · cases done
        exact ⟨func, threadId, at_, rfl⟩
      · cases done
  · cases done

theorem RegistryExact.enter_iff {s s' : Registry} (h : RegistryExact s) {lcore nRxPort : Nat}
    (done : s.enter lcore nRxPort = some s') : RegistryExact s' ↔
      (nRxPort = 0 → ∀ threadId, s.lcores lcore ≠ .launched .l2Repeater threadId) := by
  obtain ⟨func, threadId, state, at_, rfl, outcome⟩ := enter_cases done
  rcases outcome with ⟨rfl, none_, rfl⟩ | ⟨enters, rfl⟩
  · refine iff_of_false ?_ fun ok => ok none_ threadId at_
    have running : (s.lcores lcore).worker = some (.l2Repeater, threadId) := by rw [at_]; rfl
    exact h.not_of_return running rfl (by simp [LcoreState.worker])
  · refine iff_of_true (h.congr (fun _ _ _ => .rfl) ?_ rfl) ?_
    · intro lcore'
      simp only [Function.update_apply]
      split
      · next same => rw [same, at_]; rfl
      · rfl
    · intro none_ other launched
      rw [at_, LcoreState.launched.injEq] at launched
      exact enters ⟨launched.1, none_⟩

/-- What each action does to the registry. -/
theorem Threads.step_cases {eal : Eal} {s s' : Threads} {act : Action}
    (taken : s.step eal act = some s') :
    (∃ call, act = .call call ∧ s'.registry = s.registry) ∨
      (∃ op, act = .next ∧ s.pending.head? = some op ∧ s.registry.exec eal op = some s'.registry) ∨
      (∃ lcore nRxPort, act = .enter lcore nRxPort ∧
        s.registry.enter lcore nRxPort = some s'.registry) ∨
      (∃ lcore, act = .leave lcore ∧ s.registry.leave eal lcore = some s'.registry) ∨
      (act = .sigterm ∧ s'.registry = { s.registry with forceQuit := true }) := by
  cases act with
  | call call =>
      simp only [Threads.step, Option.ite_none_right_eq_some, Option.some.injEq] at taken
      exact .inl ⟨call, rfl, by rw [← taken.2]⟩
  | next =>
      simp only [Threads.step] at taken
      split at taken
      · cases taken
      · next op ops pending =>
          obtain ⟨registry, done, rfl⟩ := Option.map_eq_some_iff.mp taken
          exact .inr (.inl ⟨op, rfl, by rw [pending, List.head?_cons], done⟩)
  | enter lcore nRxPort =>
      obtain ⟨registry, done, rfl⟩ := Option.map_eq_some_iff.mp taken
      exact .inr (.inr (.inl ⟨lcore, nRxPort, rfl, done⟩))
  | leave lcore =>
      obtain ⟨registry, done, rfl⟩ := Option.map_eq_some_iff.mp taken
      exact .inr (.inr (.inr (.inl ⟨lcore, rfl, done⟩)))
  | sigterm =>
      cases taken
      exact .inr (.inr (.inr (.inr ⟨rfl, rfl⟩)))

/-- What holds of the clients, no step breaks. -/
theorem clientsOk_step {eal : Eal} (s : Threads) (act : Action) (s' : Threads)
    (h : ClientsOk s.registry) (taken : s.step eal act = some s') : ClientsOk s'.registry := by
  rcases Threads.step_cases taken with ⟨_, -, same⟩ | ⟨op, -, -, done⟩ | ⟨lcore, nRxPort, -, done⟩ |
    ⟨lcore, -, done⟩ | ⟨-, same⟩
  · exact same ▸ h
  · exact h.exec done
  · obtain ⟨func, threadId, next, -, same, -⟩ := enter_cases done
    exact same ▸ h.congr rfl rfl
  · obtain ⟨func, threadId, -, same⟩ := leave_cases done
    exact same ▸ h.congr rfl rfl
  · exact same ▸ h.congr rfl rfl

/-- A step leaves the table right exactly when it is as it should be. -/
theorem registrySound_step_iff {eal : Eal} (s : Threads) (act : Action) (s' : Threads)
    (clients : ClientsOk s.registry) (h : RegistrySound s.registry)
    (taken : s.step eal act = some s') :
    RegistrySound s'.registry ↔ ThreadsOk eal s act := by
  rw [registrySound_iff_exact] at h ⊢
  rcases Threads.step_cases taken with ⟨_, rfl, same⟩ | ⟨op, rfl, first, done⟩ |
    ⟨lcore, nRxPort, rfl, done⟩ | ⟨lcore, rfl, done⟩ | ⟨rfl, same⟩
  · exact iff_of_true (same ▸ h) trivial
  · rw [h.exec_iff clients done]
    simp [ThreadsOk, first]
  · exact h.enter_iff done
  · obtain ⟨func, threadId, at_, same⟩ := leave_cases done
    have running : (s.registry.lcores lcore).worker = some (func, threadId) := by rw [at_]; rfl
    rw [same]
    exact iff_of_false (h.not_of_return running rfl (by simp [LcoreState.worker])) id
  · rw [same]
    exact iff_of_true (h.congr (fun _ _ _ => .rfl) (fun _ => rfl) rfl) trivial

/-! ## Runs -/

theorem clientsOk_init (eal : Eal) : ClientsOk (Threads.init eal).registry where
  size := threadRegister_length _ _ _ (Nat.zero_le _)
  entry := by simp [Threads.init]
  distinct := by simp [Threads.init]

theorem registrySound_init (eal : Eal) : RegistrySound (Threads.init eal).registry := by
  refine (registrySound_iff_exact _).mpr ⟨?_, ?_, rfl⟩
  · intro lcore func i
    rw [Threads.init, hasEntry_threadRegister]
    simp only [HasEntry, List.getElem?_nil, reduceCtorEq, false_or, LcoreState.worker, iff_false]
    rintro ⟨-, -, lcoreId⟩
    omega
  · intro lcore func threadId running
    cases running

/-- Over every run from the start of the process: the table is right in all its states exactly
    when every step is as it should be. -/
theorem registrySound_throughout_iff (eal : Eal) (acts : List Action) :
    Throughout (Threads.step eal) (fun s => RegistrySound s.registry) (Threads.init eal) acts ↔
      EachStep (Threads.step eal) (ThreadsOk eal) (Threads.init eal) acts :=
  throughout_iff_eachStep clientsOk_step registrySound_step_iff acts (Threads.init eal)
    (clientsOk_init eal) (registrySound_init eal)

/-- `stop worker` leaves the entry of the worker that `start worker` registered. -/
theorem registrySound_fails_after_stop :
    ¬∀ (eal : Eal) (acts : List Action),
      Throughout (Threads.step eal) (fun s => RegistrySound s.registry) (Threads.init eal) acts := by
  intro always
  have sound := (always ⟨0, 2, fun _ => true⟩
    [.call (.setWorker .set 1 (some .tapHandler)), .next,
      .call (.startStopWorker .start (some 1)), .next, .enter 1 0,
      .call (.startStopWorker .stop (some 1)), .next, .leave 1, .next]).last rfl
  obtain ⟨threadId, running⟩ := sound.stopped 1 .tapHandler 1 rfl
  cases running

end Sdplane
