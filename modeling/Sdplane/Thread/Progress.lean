import Sdplane.Misc.Fairness
import Sdplane.Thread.Sound

/-!
# Waiting for workers

`stop_lcore` makes the lthread core wait in `rte_eal_wait_lcore` until the worker has left its
loop, and the shells, the RIB manager and all other lthreads wait with it. `nettlp_thread` looks
at the flag of the lthread core and not at that of its own (`nettlp.c:789`), so that a stop of its
lcore is not what ends it.
-/

namespace Sdplane

variable {eal : Eal}

namespace Threads

/-- The lthread core waits for a worker that nothing tells to leave its loop. -/
def Stuck (eal : Eal) (s : Threads) : Prop :=
  ∃ lcore ops threadId, s.pending = .waitLcore lcore :: ops ∧ lcore ≠ eal.lthreadCore ∧
    (s.registry.lcores lcore).worker = some (.nettlpThread, threadId) ∧
      s.registry.forceQuit = false ∧ s.registry.forceStop eal.lthreadCore = false

/-- The lthread core and each of the workers act as long as they can. -/
structure Fair (b : Behaviour (Threads.step eal)) : Prop where
  core : b.FairTo (· = .next)
  worker : ∀ lcore, b.FairTo fun a => a = .leave lcore ∨ ∃ nRxPort, a = .enter lcore nRxPort

end Threads

/-! ## A worker is told to stop before it is waited for -/

/-- Each wait comes right behind the stop of the same lcore; `last` is the lcore of a stop in
    front of all. -/
def Guarded (last : Option Nat) : List Op → Prop
  | [] => True
  | .waitLcore lcore :: ops => last = some lcore ∧ Guarded none ops
  | .forceStop lcore :: ops => Guarded (some lcore) ops
  | _ :: ops => Guarded none ops

theorem Guarded.mono {ops : List Op} (h : Guarded none ops) (last : Option Nat) :
    Guarded last ops := by
  cases ops with
  | nil => trivial
  | cons op ops =>
      cases op with
      | waitLcore lcore => cases h.1
      | _ => exact h

theorem Guarded.append {last : Option Nat} {ops ops' : List Op} (h : Guarded last ops)
    (h' : Guarded none ops') : Guarded last (ops ++ ops') := by
  induction ops generalizing last with
  | nil => exact h'.mono last
  | cons op ops ih =>
      cases op with
      | waitLcore lcore => exact ⟨h.1, ih h.2⟩
      | _ => exact ih h

theorem Guarded.flatMap {β : Type} (f : β → List Op) (each : ∀ x, Guarded none (f x))
    (xs : List β) : Guarded none (xs.flatMap f) := by
  induction xs with
  | nil => trivial
  | cons x xs ih =>
      rw [List.flatMap_cons]
      exact (each x).append ih

theorem guarded_stopLcore (lcore : Nat) : Guarded none (stopLcore lcore) := ⟨rfl, trivial⟩

/-- What a command does. -/
theorem guarded_ops (s : Registry) (call : Call) : Guarded none (call.ops eal s) := by
  cases call with
  | startStopWorker verb lcoreSpec =>
      rw [Call.ops, startStopWorker]
      refine Guarded.append (by split <;> trivial) (Guarded.flatMap _ (fun lcore => ?_) _)
      cases verb with
      | start | set => trivial
      | stop => exact guarded_stopLcore lcore
      | reset | restart => exact (guarded_stopLcore lcore).append trivial
  | setWorker verb lcore name =>
      unfold Call.ops setWorker
      dsimp only
      split
      · trivial
      · split
        · have started : Guarded none [.startLcore lcore] := trivial
          exact (guarded_stopLcore lcore).append started
        · trivial
  | shutdown | lthreadCreate | vtyConnect | vtyExit => trivial

namespace Threads

/-- A worker goes to another state. -/
def turned (lcore : Nat) (state : LcoreState) (s : Threads) : Threads :=
  { s with registry :=
    { s.registry with lcores := Function.update s.registry.lcores lcore state } }

section
variable (lcore : Nat) (state : LcoreState) (s : Threads)

@[simp] theorem turned_pending : (s.turned lcore state).pending = s.pending := rfl

@[simp] theorem turned_forceStop :
    (s.turned lcore state).registry.forceStop = s.registry.forceStop := rfl

@[simp] theorem turned_forceQuit :
    (s.turned lcore state).registry.forceQuit = s.registry.forceQuit := rfl

@[simp] theorem turned_lcores : (s.turned lcore state).registry.lcores lcore = state :=
  Function.update_self ..

theorem turned_lcores_of_ne {lcore' : Nat} (ne : lcore' ≠ lcore) :
    (s.turned lcore state).registry.lcores lcore' = s.registry.lcores lcore' :=
  Function.update_of_ne ne ..

end

/-- What happens while something is left to do. -/
theorem step_waiting {s s' : Threads} {op : Op} {ops : List Op} {act : Action}
    (pending : s.pending = op :: ops) (taken : s.step eal act = some s') :
    (act = .next ∧ ∃ registry, s.registry.exec eal op = some registry ∧ s' = ⟨registry, ops⟩) ∨
      (∃ lcore nRxPort func threadId state, act = .enter lcore nRxPort ∧
        s.registry.lcores lcore = .launched func threadId ∧
        (func = .l2Repeater ∧ state = .wait ∨ state = .looping func threadId) ∧
        s' = s.turned lcore state) ∨
      (∃ lcore func threadId, act = .leave lcore ∧
        s.registry.lcores lcore = .looping func threadId ∧
        (s.registry.forceQuit = true ∨
          s.registry.forceStop (Registry.stopsOn eal func lcore) = true) ∧
        s' = s.turned lcore .wait) ∨
      (act = .sigterm ∧ s' = { s with registry := { s.registry with forceQuit := true } }) := by
  cases act with
  | call call =>
      rw [step, if_neg (by simp [pending])] at taken
      cases taken
  | next =>
      rw [step, pending] at taken
      obtain ⟨registry, done, rfl⟩ := Option.map_eq_some_iff.mp taken
      exact .inl ⟨rfl, registry, done, rfl⟩
  | enter lcore nRxPort =>
      obtain ⟨registry, done, rfl⟩ := Option.map_eq_some_iff.mp taken
      obtain ⟨func, threadId, state, at_, rfl, outcome⟩ := enter_cases done
      refine .inr (.inl ⟨lcore, nRxPort, func, threadId, state, rfl, at_, ?_, rfl⟩)
      exact outcome.imp (fun first => ⟨first.1, first.2.2⟩) (fun second => second.2)
  | leave lcore =>
      obtain ⟨registry, done, rfl⟩ := Option.map_eq_some_iff.mp taken
      obtain ⟨func, threadId, at_, rfl⟩ := leave_cases done
      refine .inr (.inr (.inl ⟨lcore, func, threadId, rfl, at_, ?_, rfl⟩))
      simp only [Registry.leave, at_, Option.ite_none_right_eq_some] at done
      exact done.1
  | sigterm =>
      cases taken
      exact .inr (.inr (.inr ⟨rfl, rfl⟩))

/-- What is left to do, if the worker that is waited for first has been told to stop. -/
def Told (s : Threads) : Prop :=
  Guarded none s.pending ∨
    ∃ lcore, s.registry.forceStop lcore = true ∧ Guarded (some lcore) s.pending

theorem told_init : (init eal).Told := .inl trivial

theorem told_step (s : Threads) (act : Action) (s' : Threads) (told : s.Told)
    (taken : s.step eal act = some s') : s'.Told := by
  cases pending : s.pending with
  | nil =>
      cases act with
      | call call =>
          rw [step, if_pos pending] at taken
          cases taken
          exact .inl (guarded_ops s.registry call)
      | next =>
          rw [step, pending] at taken
          cases taken
      | enter | leave =>
          obtain ⟨registry, -, rfl⟩ := Option.map_eq_some_iff.mp taken
          exact .inl (pending ▸ trivial)
      | sigterm =>
          cases taken
          exact .inl (pending ▸ trivial)
  | cons op ops =>
      rcases step_waiting pending taken with ⟨rfl, registry, done, rfl⟩ |
        ⟨_, _, _, _, _, rfl, -, -, rfl⟩ | ⟨_, _, _, rfl, -, -, rfl⟩ | ⟨rfl, rfl⟩
      · rw [Told, pending] at told
        obtain ⟨known, guarded⟩ : ∃ known, Guarded known (op :: ops) := by
          rcases told with guarded | ⟨lcore, -, guarded⟩
          · exact ⟨none, guarded⟩
          · exact ⟨some lcore, guarded⟩
        cases op with
        | forceStop lcore =>
            cases done
            exact .inr ⟨lcore, Function.update_self .., guarded⟩
        | waitLcore lcore => exact .inl guarded.2
        | _ => exact .inl guarded
      · exact told
      · exact told
      · exact told

/-- The worker that is waited for has been told to stop. -/
theorem Told.wait {s : Threads} (told : s.Told) {lcore : Nat} {ops : List Op}
    (pending : s.pending = .waitLcore lcore :: ops) : s.registry.forceStop lcore = true := by
  rw [Told, pending] at told
  rcases told with ⟨none_, -⟩ | ⟨last, stopped, same, -⟩
  · cases none_
  · rwa [Option.some.inj same] at stopped

/-! ## The worker leaves, and the lthread core goes on -/

/-- The operation can be performed. -/
def CanGo (eal : Eal) (op : Op) (ops : List Op) (s : Threads) : Prop :=
  s.pending = op :: ops ∧ (s.registry.exec eal op).isSome

/-- The lthread core waits for a worker that looks at a flag which is set. -/
structure Waits (eal : Eal) (lcore : Nat) (ops : List Op) (s : Threads) : Prop where
  pending : s.pending = .waitLcore lcore :: ops
  other : lcore ≠ eal.lthreadCore
  running : s.registry.lcores lcore ≠ .wait
  told : s.registry.forceStop lcore = true
  heeds : ∀ threadId, (s.registry.lcores lcore).worker = some (.nettlpThread, threadId) →
    s.registry.forceQuit = true ∨ s.registry.forceStop eal.lthreadCore = true

/-- How many turns the worker takes until it waits for work. -/
def turns (lcore : Nat) (s : Threads) : Nat :=
  match s.registry.lcores lcore with
  | .wait => 0
  | .looping _ _ => 1
  | .launched _ _ => 2

/-- The turns of a worker. -/
def Turn (lcore : Nat) (act : Action) : Prop :=
  act = .leave lcore ∨ ∃ nRxPort, act = .enter lcore nRxPort

section
variable {lcore : Nat} {ops : List Op} {s : Threads}

theorem canGo_of_wait (pending : s.pending = .waitLcore lcore :: ops)
    (returned : s.registry.lcores lcore = .wait) : CanGo eal (.waitLcore lcore) ops s :=
  ⟨pending, by rw [Registry.exec, if_pos (.inr returned)]; rfl⟩

/-- A turn of another worker does not matter. -/
theorem Waits.otherTurn (h : Waits eal lcore ops s) {lcore' : Nat} (ne : lcore ≠ lcore')
    (state : LcoreState) : Waits eal lcore ops (s.turned lcore' state) ∧
      turns lcore (s.turned lcore' state) = turns lcore s := by
  have same := turned_lcores_of_ne lcore' state s ne
  refine ⟨⟨h.pending, h.other, ?_, h.told, ?_⟩, ?_⟩
  · rw [same]
    exact h.running
  · rw [same]
    exact h.heeds
  · rw [turns, same, turns]

theorem Waits.step (h : Waits eal lcore ops s) {act : Action} {s' : Threads}
    (taken : s.step eal act = some s') :
    CanGo eal (.waitLcore lcore) ops s' ∨
      Waits eal lcore ops s' ∧ turns lcore s' ≤ turns lcore s ∧
        (Turn lcore act → turns lcore s' < turns lcore s) := by
  rcases step_waiting h.pending taken with ⟨rfl, registry, done, rfl⟩ |
    ⟨lcore', nRxPort, func, threadId, state, rfl, at_, outcome, rfl⟩ |
    ⟨lcore', func, threadId, rfl, at_, -, rfl⟩ | ⟨rfl, rfl⟩
  · -- the wait is not over
    rw [Registry.exec, if_neg (by simp [h.other, h.running])] at done
    cases done
  · by_cases same : lcore = lcore'
    · subst same
      rcases outcome with ⟨-, rfl⟩ | rfl
      · exact .inl (canGo_of_wait h.pending (turned_lcores ..))
      · refine .inr ⟨⟨h.pending, h.other, ?_, h.told, ?_⟩, ?_⟩
        · rw [turned_lcores]
          intro waiting
          cases waiting
        · rw [turned_lcores]
          intro id worker
          exact h.heeds id (by rw [at_]; exact worker)
        · simp [turns, at_]
    · obtain ⟨waits, unturned⟩ := h.otherTurn same state
      refine .inr ⟨waits, unturned.le, ?_⟩
      rintro (turn | ⟨_, turn⟩) <;> cases turn
      exact absurd rfl same
  · by_cases same : lcore = lcore'
    · subst same
      exact .inl (canGo_of_wait h.pending (turned_lcores ..))
    · obtain ⟨waits, unturned⟩ := h.otherTurn same .wait
      refine .inr ⟨waits, unturned.le, ?_⟩
      rintro (turn | ⟨_, turn⟩) <;> cases turn
      exact absurd rfl same
  · refine .inr ⟨{ h with heeds := fun _ _ => .inl rfl }, le_rfl, ?_⟩
    rintro (turn | ⟨_, turn⟩) <;> cases turn

/-- A worker can take its turn, unless it loops and no flag it looks at is set. -/
theorem turn_able (running : s.registry.lcores lcore ≠ .wait)
    (flag : ∀ func threadId, s.registry.lcores lcore = .looping func threadId →
      s.registry.forceQuit = true ∨ s.registry.forceStop (Registry.stopsOn eal func lcore) = true) :
    ∃ act, Turn lcore act ∧ (s.step eal act).isSome := by
  cases state : s.registry.lcores lcore with
  | wait => exact absurd state running
  | launched func threadId =>
      refine ⟨.enter lcore 0, .inr ⟨0, rfl⟩, ?_⟩
      simp [Threads.step, Registry.enter, state]
  | looping func threadId =>
      refine ⟨.leave lcore, .inl rfl, ?_⟩
      simp [Threads.step, Registry.leave, state, flag func threadId state]

theorem Waits.able (h : Waits eal lcore ops s) :
    ∃ act, Turn lcore act ∧ (s.step eal act).isSome := by
  refine turn_able h.running fun func threadId loops => ?_
  by_cases nettlp : func = .nettlpThread
  · rw [Registry.stopsOn, if_pos nettlp]
    exact h.heeds threadId (by rw [loops, nettlp]; rfl)
  · rw [Registry.stopsOn, if_neg nettlp]
    exact .inr h.told

end

theorem exec_isSome_iff (r : Registry) (op : Op) : (r.exec eal op).isSome ↔
    ∀ lcore, op = .waitLcore lcore → lcore = eal.lthreadCore ∨ r.lcores lcore = .wait := by
  cases op with
  | waitLcore lcore =>
      simp only [Registry.exec, Op.waitLcore.injEq, forall_eq']
      split <;> simp_all
  | _ => simp [Registry.exec]

/-- An operation that can be performed is the next one, and nothing prevents it. -/
theorem CanGo.step {op : Op} {ops : List Op} {s s' : Threads} (h : CanGo eal op ops s)
    {act : Action} (taken : s.step eal act = some s') :
    s'.pending = ops ∨ CanGo eal op ops s' ∧ act ≠ .next := by
  obtain ⟨pending, able⟩ := h
  have goesOn : ∀ lcore state, s.registry.lcores lcore ≠ .wait →
      CanGo eal op ops (s.turned lcore state) := by
    intro lcore state runs
    refine ⟨pending, (exec_isSome_iff _ _).mpr fun lcore' wait => ?_⟩
    refine ((exec_isSome_iff _ _).mp able lcore' wait).imp id fun waits => ?_
    have ne : lcore' ≠ lcore := fun same => runs (same ▸ waits)
    rwa [turned_lcores_of_ne lcore state s ne]
  rcases step_waiting pending taken with ⟨rfl, registry, -, rfl⟩ |
    ⟨lcore, nRxPort, func, threadId, state, rfl, at_, -, rfl⟩ |
    ⟨lcore, func, threadId, rfl, at_, -, rfl⟩ | ⟨rfl, rfl⟩
  · exact .inl rfl
  · exact .inr ⟨goesOn lcore state (at_ ▸ nofun), nofun⟩
  · exact .inr ⟨goesOn lcore .wait (at_ ▸ nofun), nofun⟩
  · exact .inr ⟨⟨pending, (exec_isSome_iff _ _).mpr ((exec_isSome_iff s.registry _).mp able)⟩, nofun⟩

/-- Only a signal helps a lthread core that is stuck. -/
theorem Stuck.step {s s' : Threads} (h : Stuck eal s) {act : Action}
    (taken : s.step eal act = some s') : s'.pending = s.pending ∧ (act ≠ .sigterm → Stuck eal s') := by
  obtain ⟨lcore, ops, id, pending, other, worker, quit, stop⟩ := h
  have goesOn : ∀ lcore' state,
      (lcore = lcore' → state.worker = some (.nettlpThread, id)) →
        Stuck eal (s.turned lcore' state) := by
    intro lcore' state same
    refine ⟨lcore, ops, id, pending, other, ?_, quit, stop⟩
    by_cases ne : lcore = lcore'
    · rw [ne, turned_lcores]
      exact same ne
    · rwa [turned_lcores_of_ne lcore' state s ne]
  rcases step_waiting pending taken with ⟨rfl, registry, done, rfl⟩ |
    ⟨lcore', nRxPort, func, threadId, state, rfl, at_, outcome, rfl⟩ |
    ⟨lcore', func, threadId, rfl, at_, flag, rfl⟩ | ⟨rfl, rfl⟩
  · have able := (exec_isSome_iff s.registry _).mp (Option.isSome_of_eq_some done) lcore rfl
    rcases able with main | waits
    · exact absurd main other
    · rw [waits] at worker
      cases worker
  · refine ⟨rfl, fun _ => goesOn lcore' state fun same => ?_⟩
    subst same
    rw [at_] at worker
    obtain ⟨rfl, rfl⟩ := Prod.mk.inj (Option.some.inj worker)
    rcases outcome with ⟨repeater, -⟩ | rfl
    · cases repeater
    · rfl
  · refine ⟨rfl, fun _ => goesOn lcore' .wait fun same => ?_⟩
    subst same
    rw [at_] at worker
    obtain ⟨rfl, rfl⟩ := Prod.mk.inj (Option.some.inj worker)
    rw [Registry.stopsOn, if_pos rfl, quit, stop] at flag
    simp at flag
  · exact ⟨rfl, fun ne => absurd rfl ne⟩

/-! ## Behaviours of the process -/

section
variable {b : Behaviour (Threads.step eal)}

theorem told_always (start : b.state 0 = init eal) (n : Nat) : (b.state n).Told :=
  b.invariant (start ▸ told_init) told_step n

/-- What can be performed is performed. -/
theorem goes_on (fair : Fair b) {n : Nat} {op : Op} {ops : List Op}
    (able : CanGo eal op ops (b.state n)) : ∃ m, n ≤ m ∧ (b.state m).pending = ops := by
  refine b.leadsTo (Q := fun s => s.pending = ops) (fun _ => 0) fair.core ?_ ?_ ?_ able
    fun _ _ _ _ => trivial
  · intro s act s' h _ taken
    exact (h.step taken).imp id fun goes => ⟨goes.1, le_rfl⟩
  · intro s act s' h _ next taken
    exact (h.step taken).elim .inl fun goes => absurd next goes.2
  · intro s h
    refine ⟨.next, rfl, ?_⟩
    obtain ⟨registry, done⟩ := Option.isSome_iff_exists.mp h.2
    simp [Threads.step, h.1, done]

/-- A worker that looks at a flag which is set leaves its loop. -/
theorem returns (fair : Fair b) {n lcore : Nat} {ops : List Op}
    (waits : Waits eal lcore ops (b.state n)) :
    ∃ m, n ≤ m ∧ CanGo eal (.waitLcore lcore) ops (b.state m) := by
  refine b.leadsTo (turns lcore) (fair.worker lcore) ?_ ?_ (fun s h => h.able) waits
    fun _ _ _ _ => trivial
  · intro s act s' h _ taken
    exact (h.step taken).imp id fun goes => ⟨goes.1, goes.2.1⟩
  · intro s act s' h _ turn taken
    exact (h.step taken).imp id fun goes => ⟨goes.1, goes.2.2 turn⟩

/-- Unless the lthread core is stuck, it performs the next operation. -/
theorem performs (start : b.state 0 = init eal) (fair : Fair b) {n : Nat} {op : Op} {ops : List Op}
    (pending : (b.state n).pending = op :: ops) (free : ¬Stuck eal (b.state n)) :
    ∃ m, n ≤ m ∧ (b.state m).pending = ops := by
  by_cases able : ((b.state n).registry.exec eal op).isSome
  · exact goes_on fair ⟨pending, able⟩
  · rw [exec_isSome_iff] at able
    push Not at able
    obtain ⟨lcore, rfl, other, running⟩ := able
    have waits : Waits eal lcore ops (b.state n) := by
      refine ⟨pending, other, running, (told_always start n).wait pending, ?_⟩
      intro threadId worker
      by_contra unset
      push Not at unset
      simp only [ne_eq, Bool.not_eq_true] at unset
      exact free ⟨lcore, ops, threadId, pending, other, worker, unset⟩
    obtain ⟨m, later, returned⟩ := returns fair waits
    obtain ⟨m', later', done⟩ := goes_on fair returned
    exact ⟨m', later.trans later', done⟩

/-- Without a signal the lthread core stays stuck. -/
theorem Stuck.stays {n m : Nat} (stuck : Stuck eal (b.state n)) (later : n ≤ m)
    (unsignalled : ∀ k, n ≤ k → k < m → b.act k ≠ some .sigterm) :
    Stuck eal (b.state m) ∧ (b.state m).pending = (b.state n).pending := by
  refine b.holds_unless (P := fun s => Stuck eal s ∧ s.pending = (b.state n).pending) later
    ⟨stuck, rfl⟩ (fun s act s' h taken other => ?_) fun k act from_ upTo happens (same : act = .sigterm) =>
      unsignalled k from_ upTo (same ▸ happens)
  obtain ⟨same, goesOn⟩ := h.1.step taken
  exact ⟨goesOn other, same.trans h.2⟩

/-- A signal ends the wait. -/
theorem Stuck.signalled {n k : Nat} (stuck : Stuck eal (b.state n)) (later : n ≤ k)
    (signal : b.act k = some .sigterm) :
    ∃ m, n ≤ m ∧ ¬Stuck eal (b.state m) ∧ (b.state m).pending = (b.state n).pending := by
  classical
  have exists_ : ∃ k, n ≤ k ∧ b.act k = some .sigterm := ⟨k, later, signal⟩
  obtain ⟨first, happens⟩ := Nat.find_spec exists_
  have unsignalled : ∀ k, n ≤ k → k < Nat.find exists_ → b.act k ≠ some .sigterm :=
    fun k from_ upTo same => Nat.find_min exists_ upTo ⟨from_, same⟩
  have before := stuck.stays first unsignalled
  have taken := b.taken _ _ happens
  refine ⟨Nat.find exists_ + 1, by omega, ?_, (before.1.step taken).1.trans before.2⟩
  rintro ⟨-, -, -, -, -, -, quit, -⟩
  rw [← Option.some.inj taken] at quit
  cases quit

/-- The next operation is performed, also when it takes a signal. -/
theorem performs_iff (start : b.state 0 = init eal) (fair : Fair b) {n : Nat} {op : Op}
    {ops : List Op} (pending : (b.state n).pending = op :: ops) :
    (∃ m, n < m ∧ (b.state m).pending = ops) ↔
      ¬Stuck eal (b.state n) ∨ ∃ k, n ≤ k ∧ b.act k = some .sigterm := by
  constructor
  · rintro ⟨m, later, done⟩
    by_contra unable
    push Not at unable
    have same := (unable.1.stays later.le fun k from_ _ => unable.2 k from_).2
    rw [done, pending] at same
    simp at same
  · intro able
    obtain ⟨m, later, free, same⟩ : ∃ m, n ≤ m ∧ ¬Stuck eal (b.state m) ∧
        (b.state m).pending = op :: ops := by
      by_cases stuck : Stuck eal (b.state n)
      · obtain ⟨k, later, signal⟩ := able.resolve_left (not_not.mpr stuck)
        obtain ⟨m, from_, free, same⟩ := stuck.signalled later signal
        exact ⟨m, from_, free, same.trans pending⟩
      · exact ⟨n, le_rfl, stuck, pending⟩
    obtain ⟨m', later', done⟩ := performs start fair same free
    refine ⟨m', ?_, done⟩
    rcases later'.lt_or_eq with lt | rfl
    · omega
    · rw [same] at done
      simp at done

/-- What is left to do gets shorter, until the lthread core is stuck for good. -/
theorem ends_or_stuck (start : b.state 0 = init eal) (fair : Fair b) (n : Nat) :
    (∃ m, n ≤ m ∧ (b.state m).pending = []) ∨
      ∃ m, n ≤ m ∧ ∀ k, m ≤ k →
        Stuck eal (b.state k) ∧ (b.state k).pending = (b.state m).pending := by
  induction length : (b.state n).pending.length using Nat.strong_induction_on generalizing n with
  | _ r ih =>
      cases pending : (b.state n).pending with
      | nil => exact .inl ⟨n, le_rfl, pending⟩
      | cons op ops =>
          by_cases able : ¬Stuck eal (b.state n) ∨ ∃ k, n ≤ k ∧ b.act k = some .sigterm
          · obtain ⟨m, later, done⟩ := (performs_iff start fair pending).mpr able
            have shorter : (b.state m).pending.length < r := by
              rw [← length, pending, done]
              simp
            refine (ih _ shorter m rfl).imp ?_ ?_
            · rintro ⟨m', later', ended⟩
              exact ⟨m', by omega, ended⟩
            · rintro ⟨m', later', forever⟩
              exact ⟨m', by omega, forever⟩
          · push Not at able
            exact .inr ⟨n, le_rfl, fun k later =>
              able.1.stays later fun k from_ _ => able.2 k from_⟩

end

/-- The worker is set and started, it enters its loop, and it is to be stopped. -/
def stopNettlp : List Action :=
  [.call (.setWorker .set 1 (some .nettlpThread)), .next,
    .call (.startStopWorker .start (some 1)), .next, .enter 1 0,
    .call (.startStopWorker .stop (some 1)), .next]

theorem stopNettlp_run : ∃ last, stopNettlp.foldlM (Threads.step ⟨0, 2, fun _ => true⟩)
      (init ⟨0, 2, fun _ => true⟩) = some last ∧ last.pending = [.waitLcore 1] ∧
    last.registry.lcores 1 = .looping .nettlpThread 1 ∧
    (∀ lcore, lcore ≠ 1 → last.registry.lcores lcore = .wait) ∧
    last.registry.forceQuit = false ∧ last.registry.forceStop 0 = false := by
  refine ⟨_, rfl, rfl, rfl, ?_, rfl, rfl⟩
  intro lcore ne
  exact (Function.update_of_ne ne ..).trans (Function.update_of_ne ne ..)

end Threads

end Sdplane
