import Mathlib.Tactic.IntervalCases
import Sdplane.Thread.Progress

/-!
# Quitting

`force_quit` is set by `stop worker lcore all`, by `shutdown` and by `SIGTERM`, and only the other
commands with `all` take it back. `start worker` of one lcore does not look at it.
-/

namespace Sdplane.Threads

variable {eal : Eal}

/-- A command that takes `force_quit` back. -/
def StartsAll (act : Action) : Prop :=
  ∃ verb, verb ≠ .stop ∧ act = .call (.startStopWorker verb none)

/-- The process quits, and nothing that is left to do changes this. -/
def Quits (s : Threads) : Prop :=
  s.registry.forceQuit = true ∧ ∀ op ∈ s.pending, op ≠ .forceQuit false

theorem quits_ops {s : Registry} {call : Call} (other : ¬StartsAll (.call call)) :
    ∀ op ∈ call.ops eal s, op ≠ .forceQuit false := by
  rintro op mem rfl
  cases call with
  | startStopWorker verb lcoreSpec =>
      simp only [Call.ops, startStopWorker, List.mem_append, List.mem_flatMap] at mem
      rcases mem with mem | ⟨lcore, -, mem⟩
      · split at mem
        · next all =>
            rw [List.mem_singleton, Op.forceQuit.injEq] at mem
            exact other ⟨verb, by simpa using mem, by rw [all]⟩
        · cases mem
      · cases verb <;> simp [stopLcore] at mem
  | setWorker verb lcore name =>
      simp only [Call.ops, Sdplane.setWorker] at mem
      split at mem
      · cases mem
      · split at mem <;> simp [stopLcore] at mem
  | shutdown | lthreadCreate | vtyConnect | vtyExit => simp [Call.ops] at mem

/-- An operation sets `force_quit` only if this is what it does, and launches no worker on an lcore
    that runs one. -/
theorem exec_frame {r r' : Registry} {op : Op} (done : r.exec eal op = some r') :
    (r'.forceQuit = r.forceQuit ∨ op = .forceQuit r'.forceQuit) ∧
      ∀ lcore, r.lcores lcore ≠ .wait → r'.lcores lcore = r.lcores lcore := by
  cases op with
  | startLcore lcore' =>
      cases done
      rcases startLcore_cases eal r lcore' with ⟨-, _, same⟩ | ⟨func, forceStop, -, -, same⟩
      · rw [same]
        exact ⟨.inl rfl, fun _ _ => rfl⟩
      · rw [same, Registry.remoteLaunch]
        split
        · next free =>
            refine ⟨.inl rfl, fun lcore running => Function.update_of_ne ?_ ..⟩
            rintro rfl
            exact running free.2
        · exact ⟨.inl rfl, fun _ _ => rfl⟩
  | forceStop | setFunc | lthreadCreate =>
      cases done
      exact ⟨.inl rfl, fun _ _ => rfl⟩
  | waitLcore lcore' =>
      simp only [Registry.exec, Option.ite_none_right_eq_some, Option.some.injEq] at done
      rw [done.2]
      exact ⟨.inl rfl, fun _ _ => rfl⟩
  | forceQuit quit =>
      cases done
      exact ⟨.inr rfl, fun _ _ => rfl⟩
  | vtyConnect =>
      cases done
      unfold Registry.vtyConnect
      split <;> exact ⟨.inl rfl, fun _ _ => rfl⟩
  | vtyExit client =>
      cases done
      unfold Registry.vtyExit
      split
      · exact ⟨.inl rfl, fun _ _ => rfl⟩
      · dsimp only
        split <;> exact ⟨.inl rfl, fun _ _ => rfl⟩

theorem Quits.step {s s' : Threads} {act : Action} (quits : s.Quits) (other : ¬StartsAll act)
    (taken : s.step eal act = some s') : s'.Quits := by
  obtain ⟨quit, left⟩ := quits
  cases act with
  | call call =>
      simp only [Threads.step, Option.ite_none_right_eq_some, Option.some.injEq] at taken
      rw [← taken.2]
      exact ⟨quit, quits_ops other⟩
  | next =>
      cases pending : s.pending with
      | nil =>
          rw [Threads.step, pending] at taken
          cases taken
      | cons op ops =>
          rw [pending] at left
          rw [Threads.step, pending] at taken
          obtain ⟨registry, done, rfl⟩ := Option.map_eq_some_iff.mp taken
          refine ⟨?_, fun op' mem => left op' (List.mem_cons_of_mem op mem)⟩
          rcases (exec_frame done).1 with same | same
          · exact same.trans quit
          · have ne := left op List.mem_cons_self
            rw [same] at ne
            simpa using ne
  | enter lcore nRxPort =>
      obtain ⟨registry, done, rfl⟩ := Option.map_eq_some_iff.mp taken
      obtain ⟨_, _, _, -, rfl, -⟩ := enter_cases done
      exact ⟨quit, left⟩
  | leave lcore =>
      obtain ⟨registry, done, rfl⟩ := Option.map_eq_some_iff.mp taken
      obtain ⟨_, _, -, rfl⟩ := leave_cases done
      exact ⟨quit, left⟩
  | sigterm =>
      cases taken
      exact ⟨rfl, left⟩

/-! ## The workers return -/

/-- A worker that runs while the process quits. -/
def RunsOn (lcore : Nat) (s : Threads) : Prop := s.Quits ∧ s.registry.lcores lcore ≠ .wait

section
variable {lcore : Nat} {s s' : Threads} {act : Action}

theorem RunsOn.step (h : RunsOn lcore s) (other : ¬StartsAll act)
    (taken : s.step eal act = some s') :
    s'.registry.lcores lcore = .wait ∨ RunsOn lcore s' ∧ turns lcore s' ≤ turns lcore s ∧
      (Turn lcore act → turns lcore s' < turns lcore s) := by
  obtain ⟨quits, running⟩ := h
  have quits' := quits.step other taken
  -- the worker stays where it is
  have same : s'.registry.lcores lcore = s.registry.lcores lcore → ¬Turn lcore act →
      s'.registry.lcores lcore = .wait ∨ RunsOn lcore s' ∧ turns lcore s' ≤ turns lcore s ∧
        (Turn lcore act → turns lcore s' < turns lcore s) := by
    intro same noTurn
    refine .inr ⟨⟨quits', same ▸ running⟩, ?_, fun turn => absurd turn noTurn⟩
    rw [turns, same, turns]
  rcases Threads.step_cases taken with ⟨_, rfl, unchanged⟩ | ⟨op, rfl, -, done⟩ |
    ⟨lcore', nRxPort, rfl, done⟩ | ⟨lcore', rfl, done⟩ | ⟨rfl, unchanged⟩
  · exact same (by rw [unchanged]) (by simp [Turn])
  · exact same ((exec_frame done).2 lcore running) (by simp [Turn])
  · obtain ⟨func, threadId, state, at_, entered, outcome⟩ := enter_cases done
    by_cases here : lcore' = lcore
    · subst here
      have turned : s'.registry.lcores lcore' = state := by
        rw [entered]
        exact Function.update_self ..
      rcases outcome with ⟨-, -, rfl⟩ | ⟨-, rfl⟩
      · exact .inl turned
      · refine .inr ⟨⟨quits', by simp [turned]⟩, ?_⟩
        simp [turns, turned, at_]
    · exact same (by rw [entered]; exact Function.update_of_ne (Ne.symm here) ..)
        (by simpa [Turn] using here)
  · obtain ⟨func, threadId, at_, left⟩ := leave_cases done
    by_cases here : lcore' = lcore
    · subst here
      exact .inl (by rw [left]; exact Function.update_self ..)
    · exact same (by rw [left]; exact Function.update_of_ne (Ne.symm here) ..)
        (by simpa [Turn] using here)
  · exact same (by rw [unchanged]) (by simp [Turn])

theorem RunsOn.able (h : RunsOn lcore s) : ∃ act, Turn lcore act ∧ (s.step eal act).isSome :=
  turn_able h.2 fun _ _ _ => .inl h.1.1

end

section
variable {b : Behaviour (Threads.step eal)} {n : Nat}

theorem quits_stays (quits : (b.state n).Quits) {m : Nat} (later : n ≤ m)
    (never : ∀ k act, n ≤ k → k < m → b.act k = some act → ¬StartsAll act) :
    (b.state m).Quits :=
  b.holds_unless later quits (fun _ _ _ quits taken other => quits.step other taken) never

theorem returns_of_quits (fair : Fair b) (quits : (b.state n).Quits)
    (never : ∀ k act, n ≤ k → b.act k = some act → ¬StartsAll act) (lcore : Nat) :
    ∃ m, n ≤ m ∧ (b.state m).registry.lcores lcore = .wait := by
  by_cases waits : (b.state n).registry.lcores lcore = .wait
  · exact ⟨n, le_rfl, waits⟩
  · refine b.leadsTo (Q := fun s => s.registry.lcores lcore = .wait) (turns lcore)
      (fair.worker lcore) ?_ ?_ (fun _ => RunsOn.able) (⟨quits, waits⟩ : RunsOn lcore (b.state n)) never
    · intro s act s' h other taken
      exact (h.step other taken).imp id fun goes => ⟨goes.1, goes.2.1⟩
    · intro s act s' h other turn taken
      exact (h.step other taken).imp id fun goes => ⟨goes.1, goes.2.2 turn⟩

end

/-- A worker is started, all are stopped, and the worker is started again. -/
def stopAll : List Action :=
  [.call (.setWorker .set 1 (some .tapHandler)), .next,
    .call (.startStopWorker .start (some 1)), .next, .enter 1 0,
    .call (.startStopWorker .stop none), .next, .next, .next, .next, .leave 1, .next,
    .call (.startStopWorker .start (some 1)), .next, .enter 1 0, .leave 1]

theorem stopAll_run : ∃ last, stopAll.foldlM (Threads.step ⟨0, 2, fun _ => true⟩)
      (init ⟨0, 2, fun _ => true⟩) = some last ∧ last.pending = [] ∧
    ∀ lcore, last.registry.lcores lcore = .wait := by
  refine ⟨_, rfl, rfl, fun lcore => ?_⟩
  by_cases here : lcore = 1
  · subst here
    rfl
  · iterate 6 refine (Function.update_of_ne here ..).trans ?_
    rfl

end Sdplane.Threads
