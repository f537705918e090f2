import Sdplane.Misc.Channel

/-!
# Commands that leave their work to another thread

Commands change a state of their own and may send a message through a bounded ring; another thread
takes the messages out, one at a time, and does what they say, and may look at the state of the
commands when it does. What is still in the ring is done in thought: a state of the system stands
for the state it has once the ring is flushed. As long as commands do not change what the
messages in the ring are going to do, and the ring is never full, this is the state of a system in
which every command does its work itself.
-/

namespace Sdplane

variable {C K M R : Type}

/-- What a command does to the state of the commands, what it sends once that is done, and what a
    message does to the state of the other thread. -/
structure Mailbox (C K M R : Type) where
  command : K → C → C
  message : K → C → Option M
  process : C → M → R → R
  capacity : Nat

/-- The two states, and the ring between them. -/
structure MailState (C M R : Type) where
  sender : C
  ring : Channel M
  receiver : R

/-- What happens next. -/
inductive MailAct (K : Type) where
  | command (k : K)
  | receive

namespace Mailbox

variable (b : Mailbox C K M R)

/-- A message is lost where the ring is full. -/
def send (m : Option M) (ring : Channel M) : Channel M :=
  match m with
  | none => ring
  | some m => ring.put (decide (ring.held.length < b.capacity)) m

/-- One step; where the ring is empty, nothing is received. -/
def step (s : MailState C M R) : MailAct K → MailState C M R
  | .command k =>
      let c := b.command k s.sender
      ⟨c, b.send (b.message k c) s.ring, s.receiver⟩
  | .receive =>
      match s.ring.held with
      | [] => s
      | m :: _ => ⟨s.sender, s.ring.take 1, b.process s.sender m s.receiver⟩

def run (acts : List (MailAct K)) (s : MailState C M R) : MailState C M R := acts.foldl b.step s

/-- A command that does its work itself. -/
def direct (x : C × R) (k : K) : C × R :=
  let c := b.command k x.1
  (c, match b.message k c with
    | none => x.2
    | some m => b.process c m x.2)

/-- The commands among what happened. -/
def commands : List (MailAct K) → List K
  | [] => []
  | .command k :: acts => k :: commands acts
  | .receive :: acts => commands acts

/-- The state of the other thread once it has done what is in the ring. -/
def flushed (s : MailState C M R) : R :=
  s.ring.held.foldl (fun r m => b.process s.sender m r) s.receiver

/-- The command leaves what the messages in the ring are going to do. -/
def Calm (k : K) (s : MailState C M R) : Prop :=
  ∀ m ∈ s.ring.held, ∀ r, b.process (b.command k s.sender) m r = b.process s.sender m r

/-- Every command of the run does. -/
def CalmRun : List (MailAct K) → MailState C M R → Prop
  | [], _ => True
  | .command k :: acts, s => b.Calm k s ∧ CalmRun acts (b.step s (.command k))
  | .receive :: acts, s => CalmRun acts (b.step s .receive)

section
variable {b}

theorem flushed_receive (s : MailState C M R) : b.flushed (b.step s .receive) = b.flushed s := by
  rw [step, flushed, flushed]
  cases held : s.ring.held with
  | nil => simp only [held]
  | cons m ms =>
      simp only [Channel.take_held, held, List.drop_succ_cons, List.drop_zero, List.foldl_cons]

theorem lost_step (s : MailState C M R) (act : MailAct K) :
    s.ring.lost ≤ (b.step s act).ring.lost := by
  cases act with
  | receive =>
      rw [step]
      split
      · exact Nat.le_refl _
      · exact Nat.le_refl _
  | command k =>
      change s.ring.lost ≤ (b.send _ s.ring).lost
      unfold send
      split
      · exact Nat.le_refl _
      · exact Channel.lost_le_put _ _ _

theorem lost_run (acts : List (MailAct K)) (s : MailState C M R) :
    s.ring.lost ≤ (b.run acts s).ring.lost := by
  induction acts generalizing s with
  | nil => exact Nat.le_refl _
  | cons act acts ih => exact Nat.le_trans (lost_step s act) (ih _)

/-- A calm command whose message is not lost does, once the ring is flushed, what it would have
    done itself. -/
theorem flushed_command {s : MailState C M R} {k : K} (calm : b.Calm k s)
    (kept : (b.step s (.command k)).ring.lost = s.ring.lost) :
    ((b.step s (.command k)).sender, b.flushed (b.step s (.command k))) =
      b.direct (s.sender, b.flushed s) k := by
  have waiting : ∀ (ms : List M), (∀ m ∈ ms, m ∈ s.ring.held) → ∀ r,
      ms.foldl (fun r m => b.process (b.command k s.sender) m r) r =
        ms.foldl (fun r m => b.process s.sender m r) r := by
    intro ms
    induction ms with
    | nil => exact fun _ _ => rfl
    | cons m ms ih =>
        intro inside r
        rw [List.foldl_cons, List.foldl_cons, calm m (inside m List.mem_cons_self)]
        exact ih (fun m' mem => inside m' (List.mem_cons_of_mem _ mem)) _
  have all := waiting s.ring.held (fun _ mem => mem) s.receiver
  simp only [step, direct, flushed] at kept ⊢
  cases sent : b.message k (b.command k s.sender) with
  | none => simp only [send, all]
  | some m =>
      simp only [sent, send] at kept ⊢
      have room := Channel.room_of_lost kept
      rw [room, Channel.put_held, List.foldl_append, all]
      rfl

/-- The run of the system is, once the ring is flushed, the run of the commands. -/
theorem flushed_run (acts : List (MailAct K)) {s : MailState C M R} (calm : b.CalmRun acts s)
    (kept : (b.run acts s).ring.lost = s.ring.lost) :
    ((b.run acts s).sender, b.flushed (b.run acts s)) =
      (commands acts).foldl b.direct (s.sender, b.flushed s) := by
  induction acts generalizing s with
  | nil => rfl
  | cons act acts ih =>
      have first := lost_step (b := b) s act
      have rest := lost_run (b := b) acts (b.step s act)
      change (b.run acts (b.step s act)).ring.lost = s.ring.lost at kept
      cases act with
      | receive =>
          have received := ih (s := b.step s .receive) calm (by omega)
          rw [flushed_receive] at received
          have same : (b.step s .receive).sender = s.sender := by
            rw [step]
            split <;> rfl
          rw [same] at received
          exact received
      | command k =>
          have sent := flushed_command calm.1 (by omega)
          have received := ih (s := b.step s (.command k)) calm.2 (by omega)
          rw [sent] at received
          exact received

/-- Where the messages do the same whatever the commands have done since, every run is calm. -/
theorem calmRun_of_const (const : ∀ c c' m r, b.process c m r = b.process c' m r)
    (acts : List (MailAct K)) (s : MailState C M R) : b.CalmRun acts s := by
  induction acts generalizing s with
  | nil => exact trivial
  | cons act acts ih =>
      cases act with
      | receive => exact ih _
      | command k => exact ⟨fun m _ r => const _ _ m r, ih _⟩

/-- There the state of the other thread is what the messages that came out of the ring made of it,
    whatever was lost. -/
theorem receiver_run (const : ∀ c c' m r, b.process c m r = b.process c' m r) (c₀ : C) {r₀ : R}
    (acts : List (MailAct K)) {s : MailState C M R}
    (start : s.receiver = s.ring.given.foldl (fun r m => b.process c₀ m r) r₀) :
    (b.run acts s).receiver =
      (b.run acts s).ring.given.foldl (fun r m => b.process c₀ m r) r₀ := by
  induction acts generalizing s with
  | nil => exact start
  | cons act acts ih =>
      refine ih ?_
      cases act with
      | command k =>
          have given : (b.step s (.command k)).ring.given = s.ring.given := by
            change (b.send _ s.ring).given = s.ring.given
            unfold send
            split
            · rfl
            · exact Channel.put_given _ _ _
          rw [given]
          exact start
      | receive =>
          simp only [step]
          cases held : s.ring.held with
          | nil => exact start
          | cons m ms =>
              simp only [Channel.take_given, held, List.take_succ_cons, List.take_zero,
                List.foldl_append, List.foldl_cons, List.foldl_nil, ← start]
              exact const s.sender c₀ m s.receiver

end

end Mailbox

end Sdplane
