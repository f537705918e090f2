import Mathlib.Data.Set.Insert
import Mathlib.Logic.Function.Basic

/-!
# Quiescent-state-based reclamation

One updater publishes versions of something; readers take the published version, use it and
then pass a quiescent state. The updater works through lists of actions, one list for each
message it receives; `synchronize` lets it go on only once every registered reader has been
quiescent since the last assignment. Readers and updater interleave freely.

The versions readers may still hold are covered by an epoch, a set that grows with every
assignment and collapses to the published version with every `synchronize`.
`Reachable.epoch` reduces a safety property of all interleavings to a property of the
updater's lists of actions.
-/

namespace Sdplane.Qsbr

variable {W R A M : Type}

/-- Where a reader is: not registered, between a quiescent state and the next read, or
    using the version it took. -/
inductive Reader (R : Type) where
  | offline
  | online
  | reading (r : R)

/-- The shared state. `waiting` marks the readers that were registered at the last
    assignment and have not been quiescent since. -/
structure State (W R : Type) where
  published : R
  reader : W → Reader R
  waiting : W → Prop

/-- What the updater does: publish a version, wait for the readers, or something of its
    own. -/
inductive Act (R A : Type) where
  | assign (r : R)
  | synchronize
  | other (a : A)

/-- The shared state and what the updater has left to do for its current message. -/
structure System (W R A : Type) where
  state : State W R
  pending : List (Act R A)

/-- Before anybody has registered. -/
def System.init (r : R) : System W R A := ⟨⟨r, fun _ => .offline, fun _ => False⟩, []⟩

/-- The state after an assignment. -/
def State.assign (s : State W R) (r : R) : State W R where
  published := r
  reader := s.reader
  waiting := fun w => s.reader w ≠ .offline

section
variable [DecidableEq W]

/-- The state after reader `w` went to `x`. -/
def State.setReader (s : State W R) (w : W) (x : Reader R) : State W R :=
  { s with reader := Function.update s.reader w x }

/-- The same, with a quiescent state passed on the way. -/
def State.quiesce (s : State W R) (w : W) (x : Reader R) : State W R where
  published := s.published
  reader := Function.update s.reader w x
  waiting := Function.update s.waiting w False

theorem setReader_reader (s : State W R) (w : W) (x : Reader R) :
    (s.setReader w x).reader = Function.update s.reader w x := rfl

theorem quiesce_reader (s : State W R) (w : W) (x : Reader R) :
    (s.quiesce w x).reader = Function.update s.reader w x := rfl

theorem quiesce_waiting (s : State W R) (w : W) (x : Reader R) :
    (s.quiesce w x).waiting = Function.update s.waiting w False := rfl

/-- One step of a reader. -/
inductive ReaderStep : State W R → State W R → Prop where
  | register (s : State W R) (w : W) : s.reader w = .offline → ReaderStep s (s.quiesce w .online)
  | read (s : State W R) (w : W) : s.reader w = .online →
      ReaderStep s (s.setReader w (.reading s.published))
  | quiesce (s : State W R) (w : W) : s.reader w ≠ .offline → ReaderStep s (s.quiesce w .online)
  | unregister (s : State W R) (w : W) : s.reader w = .online →
      ReaderStep s (s.quiesce w .offline)

/-- Readers do not publish. -/
theorem ReaderStep.published {s s' : State W R} (step : ReaderStep s s') :
    s'.published = s.published := by
  cases step <;> rfl

variable (prog : M → R → List (Act R A)) (allowed : M → R → Prop)

/-- One step of the system. Between messages the updater takes any message `allowed` while
    the published version is what it is. -/
inductive Step : System W R A → System W R A → Prop where
  | reader {s s' : State W R} (k : List (Act R A)) : ReaderStep s s' → Step ⟨s, k⟩ ⟨s', k⟩
  | receive (s : State W R) (m : M) : allowed m s.published →
      Step ⟨s, []⟩ ⟨s, prog m s.published⟩
  | assign (s : State W R) (r : R) (k : List (Act R A)) :
      Step ⟨s, .assign r :: k⟩ ⟨s.assign r, k⟩
  | synchronize (s : State W R) (k : List (Act R A)) : (∀ w, ¬ s.waiting w) →
      Step ⟨s, .synchronize :: k⟩ ⟨s, k⟩
  | other (s : State W R) (a : A) (k : List (Act R A)) : Step ⟨s, .other a :: k⟩ ⟨s, k⟩

/-- The states of any interleaving that starts with `r` published. -/
inductive Reachable (r : R) : System W R A → Prop where
  | init : Reachable r (System.init r)
  | step {x y : System W R A} : Reachable r x → Step prog allowed x y → Reachable r y

/-! ## Epochs -/

/-- Readers hold versions of the epoch only, and a reader that has been quiescent since the
    last assignment holds the published one if any. -/
structure Covered (E : Set R) (s : State W R) : Prop where
  published : s.published ∈ E
  held : ∀ w r, s.reader w = .reading r → r ∈ E
  fresh : ∀ w r, s.reader w = .reading r → ¬ s.waiting w → r = s.published

omit [DecidableEq W] in
theorem covered_init (r : R) : Covered {r} (System.init r : System W R A).state where
  published := rfl
  held := fun _ _ h => nomatch h
  fresh := fun _ _ h => nomatch h

/-- A reader that is not reading any more is no reason for concern. -/
theorem Covered.quiesce {E : Set R} {s : State W R} (h : Covered E s) (w : W) {x : Reader R}
    (hx : ∀ r, x ≠ .reading r) : Covered E (s.quiesce w x) := by
  have other : ∀ v r, (s.quiesce w x).reader v = .reading r →
      v ≠ w ∧ s.reader v = .reading r := by
    intro v r hv
    by_cases same : v = w
    · subst same
      rw [quiesce_reader, Function.update_self] at hv
      exact absurd hv (hx r)
    · rw [quiesce_reader, Function.update_of_ne same] at hv
      exact ⟨same, hv⟩
  refine ⟨h.published, ?_, ?_⟩
  · intro v r hv
    exact h.held v r (other v r hv).2
  · intro v r hv quiet
    obtain ⟨ne, hv⟩ := other v r hv
    rw [quiesce_waiting, Function.update_of_ne ne] at quiet
    exact h.fresh v r hv quiet

theorem Covered.read {E : Set R} {s : State W R} (h : Covered E s) (w : W) :
    Covered E (s.setReader w (.reading s.published)) := by
  have either : ∀ v r, (s.setReader w (.reading s.published)).reader v = .reading r →
      r = s.published ∨ s.reader v = .reading r := by
    intro v r hv
    by_cases same : v = w
    · subst same
      rw [setReader_reader, Function.update_self] at hv
      exact Or.inl (Reader.reading.inj hv).symm
    · rw [setReader_reader, Function.update_of_ne same] at hv
      exact Or.inr hv
  refine ⟨h.published, ?_, ?_⟩
  · intro v r hv
    rcases either v r hv with rfl | before
    · exact h.published
    · exact h.held v r before
  · intro v r hv quiet
    rcases either v r hv with now | before
    · exact now
    · exact h.fresh v r before quiet

theorem Covered.readerStep {E : Set R} {s s' : State W R} (h : Covered E s)
    (step : ReaderStep s s') : Covered E s' := by
  cases step with
  | register w _ => exact h.quiesce w fun _ => nofun
  | read w _ => exact h.read w
  | quiesce w _ => exact h.quiesce w fun _ => nofun
  | unregister w _ => exact h.quiesce w fun _ => nofun

omit [DecidableEq W] in
theorem Covered.assign {E : Set R} {s : State W R} (h : Covered E s) (r : R) :
    Covered (insert r E) (s.assign r) where
  published := Set.mem_insert r E
  held := fun w r' hw => Set.mem_insert_of_mem r (h.held w r' hw)
  fresh := fun w r' hw quiet => by
    have registered : s.reader w ≠ .offline := by
      rw [show s.reader w = .reading r' from hw]
      exact nofun
    exact absurd registered quiet

omit [DecidableEq W] in
/-- When nobody is waited for any more, nobody holds an old version. -/
theorem Covered.synchronize {E : Set R} {s : State W R} (h : Covered E s)
    (quiet : ∀ w, ¬ s.waiting w) : Covered {s.published} s where
  published := rfl
  held := fun w r hw => h.fresh w r hw (quiet w)
  fresh := h.fresh

/-! ## The rule -/

/-- The rest of a list of actions is safe from an epoch and a published version on: every
    action finds an epoch that is safe for it, and the end of the list one that is fit for
    the next message. -/
def Safe (idle : Set R → R → Prop) (safe : Set R → R → Act R A → Prop) :
    Set R → R → List (Act R A) → Prop
  | E, p, [] => idle E p
  | E, p, .assign r :: k => safe E p (.assign r) ∧ Safe idle safe (insert r E) r k
  | E, p, .synchronize :: k => safe E p .synchronize ∧ Safe idle safe {p} p k
  | E, p, .other a :: k => safe E p (.other a) ∧ Safe idle safe E p k

/-- Actions of the updater's own do not change the epoch. -/
theorem safe_others_append {idle : Set R → R → Prop} {safe : Set R → R → Act R A → Prop}
    {E : Set R} {p : R} {others k : List (Act R A)}
    (own : ∀ act ∈ others, (∃ a, act = .other a) ∧ safe E p act) (rest : Safe idle safe E p k) :
    Safe idle safe E p (others ++ k) := by
  induction others with
  | nil => exact rest
  | cons act others ih =>
      obtain ⟨⟨a, rfl⟩, ok⟩ := own act List.mem_cons_self
      exact ⟨ok, ih fun act mem => own act (List.mem_cons_of_mem _ mem)⟩

/-- If the list of every message allowed is safe from every idle epoch on, then every
    reachable state has an epoch from which what is pending is safe. -/
theorem Reachable.epoch {prog : M → R → List (Act R A)} {allowed : M → R → Prop}
    {idle : Set R → R → Prop} {safe : Set R → R → Act R A → Prop} {r : R}
    (start : idle {r} r)
    (message : ∀ E p m, p ∈ E → idle E p → allowed m p → Safe idle safe E p (prog m p))
    {x : System W R A} (reachable : Reachable prog allowed r x) :
    ∃ E, Covered E x.state ∧ Safe idle safe E x.state.published x.pending := by
  induction reachable with
  | init => exact ⟨{r}, covered_init r, start⟩
  | step _ step ih =>
      obtain ⟨E, covered, rest⟩ := ih
      cases step with
      | reader k moved =>
          refine ⟨E, covered.readerStep moved, ?_⟩
          rw [moved.published]
          exact rest
      | receive s m permitted =>
          exact ⟨E, covered, message E s.published m covered.published rest permitted⟩
      | assign s r' k => exact ⟨insert r' E, covered.assign r', rest.2⟩
      | synchronize s k quiet => exact ⟨{s.published}, covered.synchronize quiet, rest.2⟩
      | other s a k => exact ⟨E, covered, rest.2⟩

/-! ## Runs -/

/-- The version published once the actions are through. -/
def publishedAfter : List (Act R A) → R → R
  | [], p => p
  | .assign r :: k, _ => publishedAfter k r
  | .synchronize :: k, p => publishedAfter k p
  | .other _ :: k, p => publishedAfter k p

@[simp] theorem publishedAfter_other (a : A) (k : List (Act R A)) (p : R) :
    publishedAfter (.other a :: k) p = publishedAfter k p := rfl

@[simp] theorem publishedAfter_append (k l : List (Act R A)) (p : R) :
    publishedAfter (k ++ l) p = publishedAfter l (publishedAfter k p) := by
  induction k generalizing p with
  | nil => rfl
  | cons act k ih => cases act <;> exact ih _

theorem publishedAfter_others {k : List (Act R A)} (own : ∀ act ∈ k, ∃ a, act = .other a) (p : R) :
    publishedAfter k p = p := by
  induction k with
  | nil => rfl
  | cons act k ih =>
      obtain ⟨a, rfl⟩ := own act List.mem_cons_self
      exact ih fun act mem => own act (List.mem_cons_of_mem _ mem)

/-- The updater is never held up by actions of its own. -/
theorem Reachable.others {prog : M → R → List (Act R A)} {allowed : M → R → Prop} {r : R}
    {s : State W R} {own k : List (Act R A)} (h : ∀ act ∈ own, ∃ a, act = .other a)
    (reachable : Reachable prog allowed r ⟨s, own ++ k⟩) : Reachable prog allowed r ⟨s, k⟩ := by
  induction own with
  | nil => exact reachable
  | cons act own ih =>
      obtain ⟨a, rfl⟩ := h act List.mem_cons_self
      exact ih (fun act mem => h act (List.mem_cons_of_mem _ mem))
        (reachable.step (.other s a (own ++ k)))

/-- A reader can take the published version at any time. -/
theorem Reachable.takes {prog : M → R → List (Act R A)} {allowed : M → R → Prop} {r : R}
    {s : State W R} {k : List (Act R A)} (reachable : Reachable prog allowed r ⟨s, k⟩) (w : W) :
    ∃ s' : State W R, Reachable prog allowed r ⟨s', k⟩ ∧ s'.published = s.published ∧
      s'.reader w = .reading s.published ∧ ∀ v, v ≠ w → s'.reader v = s.reader v := by
  have ready : ∃ s₁ : State W R, Reachable prog allowed r ⟨s₁, k⟩ ∧ s₁.published = s.published ∧
      s₁.reader w = .online ∧ ∀ v, v ≠ w → s₁.reader v = s.reader v := by
    have self : (s.quiesce w .online).reader w = .online := Function.update_self _ _ _
    have rest : ∀ v, v ≠ w → (s.quiesce w .online).reader v = s.reader v :=
      fun v ne => Function.update_of_ne ne _ _
    cases now : s.reader w with
    | offline =>
        exact ⟨_, reachable.step (.reader k (.register s w now)), rfl, self, rest⟩
    | online => exact ⟨s, reachable, rfl, now, fun _ _ => rfl⟩
    | reading r' =>
        have registered : s.reader w ≠ .offline := by
          rw [now]
          exact nofun
        exact ⟨_, reachable.step (.reader k (.quiesce s w registered)), rfl, self, rest⟩
  obtain ⟨s₁, reachable₁, published, online, rest⟩ := ready
  refine ⟨_, reachable₁.step (.reader k (.read s₁ w online)), published, ?_, ?_⟩
  · rw [setReader_reader, Function.update_self, published]
  · intro v ne
    rw [setReader_reader, Function.update_of_ne ne, rest v ne]

/-- With nobody registered the updater gets to the end of what is pending. -/
theorem Reachable.drain {prog : M → R → List (Act R A)} {allowed : M → R → Prop} {r : R}
    {s : State W R} {k : List (Act R A)} (reachable : Reachable prog allowed r ⟨s, k⟩)
    (offline : ∀ w, s.reader w = .offline) (quiet : ∀ w, ¬ s.waiting w) :
    ∃ s' : State W R, Reachable prog allowed r ⟨s', []⟩ ∧
      s'.published = publishedAfter k s.published ∧ ∀ w, s'.reader w = .offline := by
  induction k generalizing s with
  | nil => exact ⟨s, reachable, rfl, offline⟩
  | cons act k ih =>
      cases act with
      | assign r' =>
          exact ih (reachable.step (.assign s r' k)) offline fun w waits => waits (offline w)
      | synchronize => exact ih (reachable.step (.synchronize s k quiet)) offline quiet
      | other a => exact ih (reachable.step (.other s a k)) offline quiet

end

end Sdplane.Qsbr
