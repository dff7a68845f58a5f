import LumioNode.Library.Fallible

/-! # Programs that fail and keep their effects

A failure keeps the updates made before it.  `Triple` states what holds on return and on
failure, and composes along a `do` block. -/

namespace LumioNode.Library

abbrev Guarded (σ ε α : Type) := ExceptT ε (StateM σ) α

namespace Guarded

variable {σ ε α β : Type}

def exec (program : Guarded σ ε α) (state : σ) : Except ε α × σ := program.run.run state

/-- A check that does not touch the state. -/
def check (outcome : Except ε α) : Guarded σ ε α := ExceptT.mk (pure outcome)

/-- The operator `?` with a conversion of the error. -/
def rename {ε' : Type} (convert : ε → ε') (program : Guarded σ ε α) : Guarded σ ε' α :=
  ExceptT.adapt convert program

/-- Run a program and hand its outcome, failure or not, to what follows. -/
def attempt {ε' : Type} (program : Guarded σ ε α) : Guarded σ ε' (Except ε α) :=
  ExceptT.lift program.run

@[simp]
theorem exec_check (outcome : Except ε α) (state : σ) :
    exec (check outcome : Guarded σ ε α) state = (outcome, state) :=
  rfl

@[simp]
theorem exec_get (state : σ) : exec (get : Guarded σ ε σ) state = (.ok state, state) := rfl

theorem exec_rename {ε' : Type} (convert : ε → ε') (program : Guarded σ ε α) (state : σ) :
    exec (rename convert program) state = ((exec program state).1.mapError convert,
        (exec program state).2) :=
  rfl

theorem exec_attempt {ε' : Type} (program : Guarded σ ε α) (state : σ) :
    exec (attempt program : Guarded σ ε' (Except ε α)) state =
      (.ok (exec program state).1, (exec program state).2) :=
  rfl

theorem exec_bind (first : Guarded σ ε α) (next : α → Guarded σ ε β) (state : σ) :
    exec (first >>= next) state = match exec first state with
      | (.ok value, middle) => exec (next value) middle
      | (.error failure, middle) => (.error failure, middle) := by
  have unfolded : exec (first >>= next) state = (exec first state).1.casesOn
      (fun failure => (.error failure, (exec first state).2))
      (fun value => exec (next value) (exec first state).2) := by
    simp only [exec, ExceptT.run_bind, StateT.run_bind]
    rcases ExceptT.run first |>.run state with ⟨result, middle⟩
    cases result <;> rfl
  rw [unfolded]
  rcases exec first state with ⟨result, middle⟩
  cases result <;> rfl

/-- From `pre`, the program returns in `post` or fails in `failed`. -/
def Triple (pre : σ → Prop) (program : Guarded σ ε α)
    (post : α → σ → Prop) (failed : σ → Prop) : Prop :=
  ∀ state, pre state → match exec program state with
    | (.ok value, final) => post value final
    | (.error _, final) => failed final

variable {ε' : Type} {program : Guarded σ ε α} {next : α → Guarded σ ε β} {pre : σ → Prop}
  {post : α → σ → Prop} {failed : σ → Prop} {convert : ε → ε'} {update : σ → σ} {failure : ε}
  {value : α} {state : σ}

namespace Triple

theorem returns (holds : ∀ state, pre state → post value state) :
    Triple pre (pure value : Guarded σ ε α) post failed :=
  holds

theorem fails (holds : ∀ state, pre state → failed state) :
    Triple pre (throw failure : Guarded σ ε α) post failed :=
  holds

variable {first : Guarded σ ε α} {failed' : σ → Prop}

/-- Sequencing: the second program starts where the first one returned. -/
theorem seq (middle : α → σ → Prop) {post : β → σ → Prop}
    (firstTriple : Triple pre first middle failed)
    (nextTriple : ∀ value, Triple (middle value) (next value) post failed) :
    Triple pre (first >>= next) post failed := by
  intro state holds
  rw [exec_bind]
  have after := firstTriple state holds
  rcases outcome : exec first state with ⟨result, final⟩
  rw [outcome] at after
  cases result with
  | error => exact after
  | ok value => exact nextTriple value final after

theorem reads {next : σ → Guarded σ ε β} {post : β → σ → Prop}
    (nextTriple : ∀ current, pre current → Triple (fun state => state = current) (next current) post
      failed) : Triple pre (get >>= next) post failed := by
  intro state holds
  rw [exec_bind, exec_get]
  exact nextTriple state holds state rfl

theorem updates {post : PUnit → σ → Prop} (holds : ∀ state, pre state → post ⟨⟩ (update state)) :
    Triple pre (modify update : Guarded σ ε PUnit) post failed :=
  holds

theorem weaken {post' : α → σ → Prop} (triple : Triple pre program post failed)
    (postHolds : ∀ value state, post value state → post' value state)
    (failedHolds : ∀ state, failed state → failed' state) : Triple pre program post' failed' := by
  intro state holds
  have after := triple state holds
  rcases outcome : exec program state with ⟨result, final⟩
  rw [outcome] at after
  cases result with
  | error => exact failedHolds final after
  | ok value => exact postHolds value final after

theorem renamed (triple : Triple pre program post failed) :
    Triple pre (rename convert program) post failed := by
  intro state holds
  have after := triple state holds
  rw [exec_rename]
  rcases outcome : exec program state with ⟨result, final⟩
  rw [outcome] at after
  cases result with
  | error | ok => exact after

theorem attempted (triple : Triple pre program post failed) :
    Triple pre (attempt program : Guarded σ ε' (Except ε α)) (fun outcome state =>
        match outcome with
        | .ok value => post value state
        | .error _ => failed state)
      failed' := by
  intro state holds
  have after := triple state holds
  rw [exec_attempt]
  rcases outcome : exec program state with ⟨result, final⟩
  rw [outcome] at after
  cases result with
  | error | ok => exact after

theorem leaves (triple : Triple pre program (fun _ => failed) failed) (holds : pre state) :
    failed (exec program state).2 := by
  have after := triple state holds
  rcases outcome : exec program state with ⟨_ | _, final⟩ <;> rwa [outcome] at after

end Triple

/-- The program keeps `kept`, and `fact` is known of its result. -/
def Learns (kept : σ → Prop) (program : Guarded σ ε α) (fact : α → Prop) : Prop :=
  Triple kept program (fun value state => kept state ∧ fact value) kept

variable {kept : σ → Prop} {fact : α → Prop}

namespace Learns

theorem returns (known : fact value) : Learns kept (pure value : Guarded σ ε α) fact :=
  Triple.returns fun _ holds => ⟨holds, known⟩

theorem fails : Learns kept (throw failure : Guarded σ ε α) fact :=
  Triple.fails fun _ holds => holds

theorem checks (outcome : Except ε α) : Learns kept (check outcome : Guarded σ ε α)
    fun value => outcome = .ok value := by
  intro state holds
  rw [exec_check]
  cases outcome with
  | error => exact holds
  | ok value => exact ⟨holds, rfl⟩

theorem weaken {fact' : α → Prop} (learns : Learns kept program fact)
    (implies : ∀ value, fact value → fact' value) : Learns kept program fact' :=
  Triple.weaken learns (fun value _ after => ⟨after.1, implies value after.2⟩) fun _ holds => holds

theorem keeps (learns : Learns kept program fact) (holds : kept state) :
    kept (exec program state).2 :=
  (Triple.weaken learns (fun _ _ after => after.1) fun _ holds => holds).leaves holds

/-- What is learned first may be used in the rest of the program. -/
theorem andThen {post : β → σ → Prop} (learns : Learns kept program fact)
    (rejects : ∀ state, kept state → failed state)
    (nextTriple : ∀ value, fact value → Triple kept (next value) post failed) :
    Triple kept (program >>= next) post failed := by
  have first : Triple kept program (fun value state => kept state ∧ fact value) failed :=
    Triple.weaken learns (fun _ _ after => after) rejects
  refine Triple.seq _ first ?_
  intro value state after
  exact nextTriple value after.2 state after.1

variable {fact' : β → Prop}

theorem seq (learns : Learns kept program fact)
    (nextLearns : ∀ value, fact value → Learns kept (next value) fact') :
    Learns kept (program >>= next) fact' :=
  andThen learns (fun _ holds => holds) nextLearns

theorem reads {next : σ → Guarded σ ε β}
    (nextLearns : ∀ current, kept current → Learns kept (next current) fact') :
    Learns kept (get >>= next) fact' := by
  refine Triple.reads fun current holds => ?_
  rintro state rfl
  exact nextLearns state holds state holds

theorem renamed (learns : Learns kept program fact) : Learns kept (rename convert program) fact :=
  Triple.renamed learns

theorem attempted (learns : Learns kept program fact) :
    Learns kept (attempt program : Guarded σ ε' (Except ε α)) fun _ => True := by
  refine Triple.weaken (Triple.attempted learns) ?_ fun _ holds => holds
  intro outcome state after
  cases outcome with
  | error => exact ⟨after, trivial⟩
  | ok => exact ⟨after.1, trivial⟩

theorem updates (keeps : ∀ state, kept state → kept (update state)) :
    Learns kept (modify update : Guarded σ ε PUnit) fun _ => True :=
  Triple.updates fun state holds => ⟨keeps state holds, trivial⟩

end Learns

end Guarded

end LumioNode.Library
