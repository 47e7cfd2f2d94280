import Barrage.Machine.Wait
import Barrage.Proofs.Machine.Watching

/-!
# Polls of a wait

A wait that is polled looks at its token first and at nothing else if that is cancelled. A token knows its
sources only as a list; here it is told how it was made, link by link, and its sources are those that can be
reached through the links.

Between two polls a wait is suspended until the frame in which it last went on is over. A poll in the same
frame does nothing. Who takes one turn in every frame never polls so early, and need not remember the frame.

## Main definitions

* `CancelToken.Linking` — how a token was made, and the sources that its links reach
* `Wait.left`, `Wait.answer?`, `Wait.looks` — what is left of a wait after some polls, the answer of a poll, and
  when a poll looks at the condition
* `NextFrame`, `Suspended` — a wait that remembers the frame in which it last went on

## Main results

* `CancelToken.Linking.isCancelled_token` — a token is cancelled with any source that its links reach
* `Wait.run_poll` — what comes of a poll
* `Wait.run_recordedPoll` — a poll looks at the condition once, or not at all if the token
  is cancelled
* `Suspended.run_poll_of_ready`, `Suspended.run_poll_of_not_ready` — polls behind the frame of the last one, and
  in it
-/

namespace Barrage

/-! ### Tokens and their links -/

namespace CancelToken

/-- How a token was made. -/
inductive Linking where
  | none
  | ofSource (source : Nat)
  | linked (parts : List Linking)

namespace Linking

mutual

/-- The token that was made. -/
def token : Linking → CancelToken
  | none => .none
  | ofSource source => .ofSource source
  | linked parts => .linked (tokens parts)

/-- The tokens that were made. -/
def tokens : List Linking → List CancelToken
  | [] => []
  | part :: rest => part.token :: tokens rest

end

/-- A source is reached, through however many links. -/
inductive Reaches : Linking → Nat → Prop
  | ofSource (source : Nat) : Reaches (.ofSource source) source
  | linked {parts : List Linking} {part : Linking} {source : Nat} (hpart : part ∈ parts)
    (hsource : part.Reaches source) : Reaches (.linked parts) source

theorem reaches_linked_iff {parts : List Linking} {source : Nat} :
    (linked parts).Reaches source ↔ ∃ part ∈ parts, part.Reaches source := by
  constructor
  · rintro (_ | ⟨hpart, hsource⟩)
    exact ⟨_, hpart, hsource⟩
  · rintro ⟨part, hpart, hsource⟩
    exact .linked hpart hsource

mutual

/-- The sources of a token are those that its links reach. -/
theorem mem_sources_token (l : Linking) (source : Nat) : source ∈ l.token.sources ↔ l.Reaches source := by
  cases l with
  | none =>
    refine iff_of_false (by simp [token, CancelToken.none]) ?_
    rintro ⟨⟩
  | ofSource own =>
    rw [token, CancelToken.ofSource, List.mem_singleton]
    constructor
    · rintro rfl
      exact .ofSource source
    · rintro ⟨⟩
      rfl
  | linked parts =>
    rw [token, mem_linked, reaches_linked_iff]
    exact exists_mem_tokens parts source

theorem exists_mem_tokens (parts : List Linking) (source : Nat) :
    (∃ token ∈ tokens parts, source ∈ token.sources) ↔ ∃ part ∈ parts, part.Reaches source := by
  cases parts with
  | nil => simp [tokens]
  | cons part rest =>
    simp only [tokens, List.mem_cons, exists_eq_or_imp]
    rw [mem_sources_token part source, exists_mem_tokens rest source]

end

/-- A token is cancelled as soon as one of the sources is that its links reach. -/
theorem isCancelled_token {l : Linking} {s : Sources} :
    l.token.isCancelled s ↔ ∃ source, l.Reaches source ∧ s.isCancelled source := by
  simp only [isCancelled_iff, mem_sources_token]

end Linking

end CancelToken

/-! ### Polls -/

/-- What comes of a turn, given the answer, if there is one, and what is left otherwise. -/
def Turn.ofAnswer? {α : Type} (rest : α) : Option (Except MachineError Unit) → Turn α
  | some answer => done answer
  | none => waiting rest

theorem Turn.ofAnswer?_eq_done_iff {α : Type} {rest : α} {answer : Except MachineError Unit}
    {found : Option (Except MachineError Unit)} : ofAnswer? rest found = .done answer ↔ found = some answer := by
  cases found <;> simp [ofAnswer?]

theorem Turn.ofAnswer?_eq_waiting_iff {α : Type} {rest : α} {found : Option (Except MachineError Unit)} :
    ofAnswer? rest found = .waiting rest ↔ found = none := by
  cases found <;> simp [ofAnswer?]

namespace Wait

variable {σ τ γ : Type} (holds : γ → SchedulerM σ τ (Except MachineError Bool))

/-- A poll of a wait. -/
abbrev poll (wait : Wait γ) : SchedulerM σ τ (Turn (Wait γ)) :=
  wait.turn Scheduler.isCancelled holds

/-- What is left of a wait after some polls, if it is still waiting. -/
def left (polls : Nat) : Wait γ → Wait γ
  | frames left token => frames (left - polls) token
  | wait => wait

/-- The answer of a wait for a condition that has come to a value, if it gives one. -/
def verdict : Except MachineError Bool → Option (Except MachineError Unit)
  | .error e => some (.error e)
  | .ok true => some (.ok ())
  | .ok false => none

/-- The answer of a wait that is polled in some state, if it gives one. -/
def answer? (wait : Wait γ) (p : Scheduler σ τ) : Option (Except MachineError Unit) :=
  if wait.token.isCancelled p.sources then some (.error .cancelled)
  else
    match wait with
    | frames 0 _ => some (.ok ())
    | frames (_ + 1) _ => none
    | «until» condition _ => verdict ((holds condition).run p).1
    | cancelled _ => none

/-- The state behind a poll. Only a condition that is looked at can change it. -/
def polled (wait : Wait γ) (p : Scheduler σ τ) : Scheduler σ τ :=
  if wait.token.isCancelled p.sources then p
  else
    match wait with
    | «until» condition _ => ((holds condition).run p).2
    | _ => p

@[simp] theorem token_left (polls : Nat) (wait : Wait γ) : (wait.left polls).token = wait.token := by
  cases wait <;> rfl

theorem verdict_eq_none_iff {value : Except MachineError Bool} : verdict value = none ↔ value = .ok false := by
  rcases value with e | _ | _ <;> simp [verdict]

theorem verdict_eq_some_iff {value : Except MachineError Bool} {answer : Except MachineError Unit} :
    verdict value = some answer ↔
      value = .ok true ∧ answer = .ok () ∨ ∃ e, value = .error e ∧ answer = .error e := by
  rcases value with e | _ | _ <;> simp [verdict, eq_comm]

theorem left_zero (wait : Wait γ) : wait.left 0 = wait := by
  cases wait <;> rfl

theorem left_succ (wait : Wait γ) (polls : Nat) : (wait.left polls).left 1 = wait.left (polls + 1) := by
  cases wait <;> rfl

theorem answer?_of_cancelled {wait : Wait γ} {p : Scheduler σ τ} (h : wait.token.isCancelled p.sources) :
    wait.answer? holds p = some (.error .cancelled) := if_pos h

theorem answer?_frames {left : Nat} {token : CancelToken} {p : Scheduler σ τ}
    (h : ¬ token.isCancelled p.sources) :
    (frames left token : Wait γ).answer? holds p = if left = 0 then some (.ok ()) else none := by
  cases left <;> exact if_neg h

theorem answer?_until {condition : γ} {token : CancelToken} {p : Scheduler σ τ}
    (h : ¬ token.isCancelled p.sources) :
    («until» condition token).answer? holds p = verdict ((holds condition).run p).1 := if_neg h

/-- A wait for a condition goes by the value that this comes to. -/
theorem liveTurn_until {m : Type → Type} [Monad m] [LawfulMonad m] (holds : γ → m (Except MachineError Bool))
    (condition : γ) (token : CancelToken) :
    liveTurn holds («until» condition token) = do
      return Turn.ofAnswer? («until» condition token) (verdict (← holds condition)) := by
  refine bind_congr fun value => ?_
  rcases value with e | _ | _ <;> rfl

/-- A poll gives the answer, or what is left is polled again. -/
theorem run_poll (wait : Wait γ) (p : Scheduler σ τ) :
    (wait.poll holds).run p = (.ofAnswer? (wait.left 1) (wait.answer? holds p), wait.polled holds p) := by
  have hpoll : (wait.poll holds).run p =
      if wait.token.isCancelled p.sources then (.cancelled, p) else (wait.liveTurn holds).run p := by
    change (if wait.token.isCancelled p.sources then pure .cancelled else wait.liveTurn holds :
      SchedulerM σ τ _).run p = _
    split <;> rfl
  rw [hpoll]
  unfold answer? polled
  split
  · rfl
  · cases wait with
    | frames left token => cases left <;> rfl
    | «until» condition token =>
      rw [liveTurn_until]
      rfl
    | cancelled token => rfl

/-! ### Looks at the condition -/

/-- A condition, with a record of the states in which it is looked at. -/
def recorded (condition : γ) : StateT (List (Scheduler σ τ)) (SchedulerM σ τ) (Except MachineError Bool) := do
  let p : Scheduler σ τ ← StateT.lift get
  modify fun looks => looks ++ [p]
  StateT.lift (holds condition)

/-- A poll of a wait, with a record of the states in which its condition is looked at. -/
abbrev recordedPoll (wait : Wait γ) : StateT (List (Scheduler σ τ)) (SchedulerM σ τ) (Turn (Wait γ)) :=
  wait.turn (fun token => StateT.lift (Scheduler.isCancelled token)) (recorded holds)

/-- The states in which a poll of a wait looks at the condition. -/
def looks (wait : Wait γ) (p : Scheduler σ τ) : List (Scheduler σ τ) :=
  (((wait.recordedPoll holds).run []).run p).1.2

/-- A poll looks at a condition once, and not at all if the token is cancelled. The record of it changes
nothing. -/
theorem run_recordedPoll (wait : Wait γ) (p : Scheduler σ τ) :
    ((wait.recordedPoll holds).run []).run p =
      ((((wait.poll holds).run p).1,
        if wait.token.isCancelled p.sources then []
        else
          match wait with
          | «until» _ _ => [p]
          | _ => []),
        ((wait.poll holds).run p).2) := by
  have hrecorded : ((wait.recordedPoll holds).run []).run p =
      if wait.token.isCancelled p.sources then ((.cancelled, []), p)
      else ((wait.liveTurn (recorded holds)).run []).run p := by
    change ((if wait.token.isCancelled p.sources then pure .cancelled else wait.liveTurn (recorded holds) :
      StateT (List (Scheduler σ τ)) (SchedulerM σ τ) _).run []).run p = _
    split <;> rfl
  rw [hrecorded, run_poll]
  unfold answer? polled
  split
  · rfl
  · cases wait with
    | frames left token => cases left <;> rfl
    | «until» condition token =>
      rw [liveTurn_until]
      rfl
    | cancelled token => rfl

theorem looks_until (condition : γ) (token : CancelToken) (p : Scheduler σ τ) :
    («until» condition token).looks holds p = if token.isCancelled p.sources then [] else [p] := by
  rw [looks, run_recordedPoll]
  rfl

end Wait

/-! ### Suspended waits -/

/-- A wait for the frame behind the one in which it was made. -/
structure NextFrame where
  started : Nat

/-- The frame has passed. -/
def NextFrame.isOver (n : NextFrame) (clock : FrameClock) : Bool := n.started < clock.frame

/-- A wait between two polls. Once it was polled, it is held up by the rest of the frame. -/
structure Suspended (γ : Type) where
  wait : Wait γ
  inner : Option NextFrame := none

namespace Suspended

variable {σ τ γ : Type} (holds : γ → SchedulerM σ τ (Except MachineError Bool))

/-- Nothing holds the wait up any more. -/
def isReady (s : Suspended γ) (clock : FrameClock) : Bool := s.inner.all (·.isOver clock)

/-- The wait goes on. If it is not over then, the rest of the frame holds it up. -/
def resume (s : Suspended γ) : SchedulerM σ τ (Turn (Suspended γ)) := do
  match ← s.wait.poll holds with
  | .done answer => return .done answer
  | .waiting rest => return .waiting ⟨rest, some ⟨(← get).clock.frame⟩⟩

/-- A poll of a suspended wait. -/
def poll (s : Suspended γ) : SchedulerM σ τ (Turn (Suspended γ)) := do
  if s.isReady (← get).clock then s.resume holds else return .waiting s

variable {holds} {s : Suspended γ} {p : Scheduler σ τ}

theorem run_poll (s : Suspended γ) (p : Scheduler σ τ) :
    (s.poll holds).run p = if s.isReady p.clock then (s.resume holds).run p else (.waiting s, p) := by
  change (if s.isReady p.clock then s.resume holds else pure (.waiting s) : SchedulerM σ τ _).run p = _
  split <;> rfl

/-- A poll in the frame of the last one does nothing. -/
theorem run_poll_of_not_ready (h : ¬ s.isReady p.clock) : (s.poll holds).run p = (.waiting s, p) := by
  rw [run_poll, if_neg h]

/-- A poll behind the frame of the last one is a poll of the wait. -/
theorem run_poll_of_ready (h : s.isReady p.clock) :
    (s.poll holds).run p =
      (.ofAnswer? ⟨s.wait.left 1, some ⟨(s.wait.polled holds p).clock.frame⟩⟩ (s.wait.answer? holds p),
        s.wait.polled holds p) := by
  have hresume : (s.resume holds).run p =
      (match ((s.wait.poll holds).run p).1 with
      | .done answer => pure (.done answer)
      | .waiting rest => do return .waiting ⟨rest, some ⟨(← get).clock.frame⟩⟩ :
        SchedulerM σ τ (Turn (Suspended γ))).run ((s.wait.poll holds).run p).2 := rfl
  rw [run_poll, if_pos h, hresume, Wait.run_poll]
  cases s.wait.answer? holds p <;> rfl

end Suspended

end Barrage
