import Mathlib.Data.List.Forall2

/-! # Fallible computations and their runs

Inversion rules for `Except` peel a `do` block apart.  A run stops at the first failure;
conditions may speak of the state before each call. -/

namespace LumioNode.Library

open List

variable {ε ε' α β : Type}

/-- A failed assertion, or an error that is returned to the caller. -/
inductive Fault where
  | panic
  | error (message : String)
deriving DecidableEq, Repr

/-- The check `ensure!(condition, failure)`. -/
def ensure (condition : Prop) [Decidable condition] (failure : ε) : Except ε Unit :=
  if condition then .ok () else .error failure

variable {failure : ε} {result : β} {condition : Prop} {rename : ε → ε'} {name : α → β}
  {values : List β}

@[simp]
theorem ensure_eq_ok [Decidable condition] {value : Unit} :
    ensure condition failure = .ok value ↔ condition := by
  unfold ensure
  split <;> simp_all

theorem ensure_of [Decidable condition] (holds : condition) : ensure condition failure = .ok () :=
  ensure_eq_ok.mpr holds

/-- A subtraction of unsigned integers that panics below zero. -/
def checkedSub (left right : Nat) : Except Fault Nat :=
  if right ≤ left then .ok (left - right) else .error .panic

theorem checkedSub_of_le {left right : Nat} (atMost : right ≤ left) :
    checkedSub left right = .ok (left - right) :=
  if_pos atMost

/-- `Option::expect` and `Option::ok_or`. -/
def expect (failure : ε) : Option α → Except ε α
  | some value => .ok value
  | none => .error failure

variable {value : α}

@[simp]
theorem expect_eq_ok {found : Option α} :
    expect failure found = .ok value ↔ found = some value := by
  cases found with
  | none | some => simp [expect]

variable {first : Except ε α} {next step : α → Except ε β}

@[simp]
theorem bind_eq_ok :
    (first >>= next) = .ok result ↔ ∃ value, first = .ok value ∧ next value = .ok result := by
  cases first with
  | error | ok => simp [bind, Except.bind]

theorem of_bind (isOk : (first >>= next) = .ok result) :
    ∃ value, first = .ok value ∧ next value = .ok result :=
  bind_eq_ok.mp isOk

theorem of_ensure_bind [Decidable condition] {next : Unit → Except ε β}
    (isOk : (ensure condition failure >>= next) = .ok result) :
    condition ∧ next () = .ok result := by
  obtain ⟨_, holds, isNext⟩ := of_bind isOk
  exact ⟨ensure_eq_ok.mp holds, isNext⟩

theorem bind_eq_error : (first >>= next) = .error failure ↔ first = .error failure ∨
    ∃ value, first = .ok value ∧ next value = .error failure := by
  cases first with
  | error | ok => simp [bind, Except.bind]

theorem ok_bind : (Except.ok value >>= next) = next value := rfl

theorem error_bind : (Except.error failure >>= next) = Except.error failure := rfl

theorem safe_ensure {condition : Prop} [Decidable condition] {message : String}
    {next : Unit → Except Fault α} {meets : α → Prop}
    (rest : condition → next () ≠ .error .panic ∧ ∀ after, next () = .ok after → meets after) :
    (ensure condition (.error message) >>= next) ≠ .error .panic ∧
      ∀ after, (ensure condition (.error message) >>= next) = .ok after → meets after := by
  by_cases holds : condition
  · rw [ensure_of holds]
    exact rest holds
  · rw [ensure, if_neg holds]
    exact ⟨nofun, nofun⟩

@[simp]
theorem map_eq_ok {transform : α → β} :
    first.map transform = .ok result ↔ ∃ value, first = .ok value ∧ transform value = result := by
  cases first with
  | error | ok => simp [Except.map]

@[simp]
theorem mapError_eq_ok {result : α} : first.mapError rename = .ok result ↔ first = .ok result := by
  cases first with
  | error | ok => simp [Except.mapError]

theorem mapError_eq_error {failure : ε'} : first.mapError rename = .error failure ↔
      ∃ other, first = .error other ∧ rename other = failure := by
  cases first with
  | error | ok => simp [Except.mapError]

@[simp]
theorem pure_eq_ok {result : α} : (pure value : Except ε α) = .ok result ↔ value = result := by
  simp [pure, Except.pure]

variable {items : List α}

/-- A map all of whose calls succeed. -/
theorem mapM_eq_ok {γ : Type} {step : β → Except ε γ} {result : α → γ}
    (succeeds : ∀ item ∈ items, step (name item) = .ok (result item)) :
    (items.map name).mapM step = .ok (items.map result) := by
  induction items with
  | nil => rfl
  | cons item rest inductionHypothesis =>
    rw [map_cons, mapM_cons, succeeds item mem_cons_self,
      ok_bind, inductionHypothesis (forall_mem_cons.mp succeeds).2, ok_bind]
    rfl

theorem mapM_named {γ : Type} {nameOf : β → γ} {name : α → γ}
    (succeeds : ∀ item ∈ items, ∃ value, step item = .ok value ∧ nameOf value = name item) :
    ∃ values, items.mapM step = .ok values ∧ values.map nameOf = items.map name := by
  induction items with
  | nil => exact ⟨[], rfl, rfl⟩
  | cons item rest inductionHypothesis =>
    obtain ⟨value, isValue, isName⟩ := succeeds item mem_cons_self
    obtain ⟨values, areValues, areNames⟩ := inductionHypothesis (forall_mem_cons.mp succeeds).2
    refine ⟨value :: values, ?_, ?_⟩
    · rw [mapM_cons, isValue, ok_bind, areValues, ok_bind]
      rfl
    · rw [map_cons, map_cons, isName, areNames]

theorem anyM_eq_ok_false {condition : α → Except ε Bool}
    (isFalse : items.anyM condition = .ok false) : ∀ item ∈ items, condition item = .ok false := by
  induction items with
  | nil => exact fun item isItem => nomatch isItem
  | cons first rest inductionHypothesis =>
    obtain ⟨holds, isFirst, isRest⟩ := of_bind isFalse
    cases holds with
    | true => cases isRest
    | false => exact forall_mem_cons.mpr ⟨isFirst, inductionHypothesis isRest⟩

theorem anyM_succeeds {condition : α → Except ε Bool}
    (succeeds : ∀ item ∈ items, ∃ holds, condition item = .ok holds) :
    ∃ holds, items.anyM condition = .ok holds := by
  induction items with
  | nil => exact ⟨false, rfl⟩
  | cons first rest inductionHypothesis =>
    obtain ⟨⟨holds, isFirst⟩, ofRest⟩ := forall_mem_cons.mp succeeds
    rw [anyM, isFirst, ok_bind]
    cases holds with
    | true => exact ⟨true, rfl⟩
    | false => exact inductionHypothesis ofRest

theorem forall₂_of_mapM (mapped : items.mapM step = .ok values) :
    List.Forall₂ (fun item value => step item = .ok value) items values := by
  induction items generalizing values with
  | nil =>
    cases mapped
    exact .nil
  | cons item rest inductionHypothesis =>
    rw [mapM_cons] at mapped
    obtain ⟨value, isValue, mapped⟩ := of_bind mapped
    obtain ⟨others, areOthers, mapped⟩ := of_bind mapped
    cases mapped
    exact .cons isValue (inductionHypothesis areOthers)

theorem succeeds_of_mapM (mapped : items.mapM step = .ok values) :
    ∀ item ∈ items, ∃ value, step item = .ok value := by
  have related := forall₂_of_mapM mapped
  clear mapped
  induction related with
  | nil => nofun
  | cons isFirst _ inductionHypothesis =>
    exact forall_mem_cons.mpr ⟨⟨_, isFirst⟩, inductionHypothesis⟩

theorem exists_of_mem_mapM (mapped : items.mapM step = .ok values) {value : β}
    (isValue : value ∈ values) : ∃ item ∈ items, step item = .ok value := by
  have related := forall₂_of_mapM mapped
  clear mapped
  induction related with
  | nil => cases isValue
  | cons isFirst _ inductionHypothesis =>
    rcases mem_cons.mp isValue with rfl | inRest
    · exact ⟨_, mem_cons_self, isFirst⟩
    · obtain ⟨item, isItem, mapsTo⟩ := inductionHypothesis inRest
      exact ⟨item, mem_cons_of_mem _ isItem, mapsTo⟩

theorem exists_of_mapM_error (failed : items.mapM step = .error failure) :
    ∃ item ∈ items, step item = .error failure := by
  induction items with
  | nil => cases failed
  | cons item rest inductionHypothesis =>
    rw [mapM_cons] at failed
    rcases bind_eq_error.mp failed with isFirst | ⟨_, _, failed⟩
    · exact ⟨item, mem_cons_self, isFirst⟩
    · rcases bind_eq_error.mp failed with isRest | ⟨_, _, failed⟩
      · obtain ⟨found, isFound, fails⟩ := inductionHypothesis isRest
        exact ⟨found, mem_cons_of_mem _ isFound, fails⟩
      · cases failed

/-- A filter whose condition may fail. -/
def filterEach (condition : α → Except ε Bool) : List α → Except ε (List α)
  | [] => .ok []
  | item :: rest => do
      let keep ← condition item
      let others ← filterEach condition rest
      return if keep then item :: others else others

theorem filterEach_eq_ok {condition : β → Except ε Bool} {keep : α → Bool}
    (succeeds : ∀ item ∈ items, condition (name item) = .ok (keep item)) :
    filterEach condition (items.map name) = .ok ((items.filter keep).map name) := by
  induction items with
  | nil => rfl
  | cons item rest inductionHypothesis =>
    rw [map_cons, filterEach, succeeds item mem_cons_self, ok_bind,
      inductionHypothesis (forall_mem_cons.mp succeeds).2, ok_bind, filter_cons]
    cases keep item with
    | false | true => rfl

variable {σ κ ε : Type}

section Definitions

variable (perform : σ → κ → Except ε σ)

def runAll (state : σ) : List κ → Except ε σ
  | [] => .ok state
  | call :: rest => do
      let after ← perform state call
      runAll after rest

/-- Every call of the run meets the condition in the state before it. -/
def RunMeets (condition : σ → κ → Prop) (state : σ) : List κ → Prop
  | [] => True
  | call :: rest => condition state call ∧
      ∀ after, perform state call = .ok after → RunMeets condition after rest

instance decidableRunMeets (condition : σ → κ → Prop)
    [∀ state call, Decidable (condition state call)] (state : σ) :
    (calls : List κ) → Decidable (RunMeets perform condition state calls)
  | [] => .isTrue trivial
  | call :: rest =>
    match performed : perform state call with
    | .error _ => decidable_of_iff (condition state call) (by
        simp [RunMeets, performed])
    | .ok after =>
      have := decidableRunMeets condition after rest
      decidable_of_iff (condition state call ∧ RunMeets perform condition after rest) (by
          simp [RunMeets, performed])

end Definitions

variable {perform : σ → κ → Except ε σ} {condition : σ → κ → Prop} {state : σ}

theorem RunMeets.cons {after : σ} {call : κ} {rest : List κ}
    (performed : perform state call = .ok after) (meets : condition state call)
    (restMeets : RunMeets perform condition after rest) :
    RunMeets perform condition state (call :: rest) := by
  refine ⟨meets, ?_⟩
  intro other otherPerformed
  rw [performed] at otherPerformed
  cases otherPerformed
  exact restMeets

/-- What one call keeps or fails with, a whole run keeps or fails with. -/
theorem RunMeets.invariant {invariant : σ → Prop} {allowed : ε → Prop} {calls : List κ}
    (meets : RunMeets perform condition state calls) (starts : invariant state)
    (step : ∀ before, ∀ call ∈ calls, invariant before → condition before call →
      (∃ failure, perform before call = .error failure ∧ allowed failure) ∨ ∃ after, perform before
      call = .ok after ∧ invariant after) :
    (∃ failure, runAll perform state calls = .error failure ∧ allowed failure) ∨
      ∃ reached, runAll perform state calls = .ok reached ∧ invariant reached := by
  induction calls generalizing state with
  | nil => exact .inr ⟨state, rfl, starts⟩
  | cons call rest inductionHypothesis =>
    rcases step state call mem_cons_self starts meets.1 with
      ⟨failure, failed, isAllowed⟩ | ⟨after, performed, keeps⟩
    · refine .inl ⟨failure, ?_, isAllowed⟩
      simp only [runAll, failed, error_bind]
    · simp only [runAll, performed, ok_bind]
      apply inductionHypothesis (meets.2 after performed) keeps
      intro before other isOther
      exact step before other (mem_cons_of_mem _ isOther)

/-- What one successful call keeps, a successful run keeps. -/
theorem RunMeets.invariant_of_ok {invariant : σ → Prop} {calls : List κ}
    (meets : RunMeets perform condition state calls) (starts : invariant state)
    (step : ∀ before, ∀ call ∈ calls, invariant before → condition before call → ∀ after, perform
      before call = .ok after → invariant after) {reached : σ}
    (ran : runAll perform state calls = .ok reached) : invariant reached := by
  induction calls generalizing state with
  | nil =>
    cases ran
    exact starts
  | cons call rest inductionHypothesis =>
    obtain ⟨after, performed, ranRest⟩ := of_bind ran
    have keeps := step state call mem_cons_self starts meets.1 after performed
    apply inductionHypothesis (meets.2 after performed) keeps ?_ ranRest
    intro before other isOther
    exact step before other (mem_cons_of_mem _ isOther)

/-- A failure that no call ends with is no end of a run. -/
theorem RunMeets.safe (invariant : σ → Prop) {fault : ε} {calls : List κ}
    (meets : RunMeets perform condition state calls) (starts : invariant state)
    (step : ∀ before, ∀ call ∈ calls, invariant before → condition before call → perform before call
      ≠ .error fault ∧ ∀ after, perform before call = .ok after → invariant after) :
    runAll perform state calls ≠ .error fault ∧
      ∀ reached, runAll perform state calls = .ok reached → invariant reached := by
  refine ⟨?_, fun reached => meets.invariant_of_ok starts fun before call isCall keeps holds =>
    (step before call isCall keeps holds).2⟩
  induction calls generalizing state with
  | nil => nofun
  | cons call rest inductionHypothesis =>
    obtain ⟨notFault, keeps⟩ := step state call mem_cons_self starts meets.1
    unfold runAll
    cases performed : perform state call with
    | error =>
      rw [performed] at notFault
      exact notFault
    | ok after =>
      apply inductionHypothesis (meets.2 after performed) (keeps after performed)
      intro before other isOther
      exact step before other (mem_cons_of_mem _ isOther)

theorem runMeets_true {calls : List κ} : RunMeets perform (fun _ _ => True) state calls := by
  induction calls generalizing state with
  | nil => trivial
  | cons call rest inductionHypothesis => exact ⟨trivial, fun _ _ => inductionHypothesis⟩

theorem runAll_keeps (invariant : σ → Prop) {calls : List κ} {reached : σ}
    (starts : invariant state) (step : ∀ before, ∀ call ∈ calls, invariant before → ∀ after,
      perform before call = .ok after → invariant after)
    (ran : runAll perform state calls = .ok reached) : invariant reached :=
  runMeets_true.invariant_of_ok starts
    (fun before call isCall keeps _ => step before call isCall keeps) ran

theorem runAll_append (first rest : List κ) : runAll perform state (first ++ rest) =
    (runAll perform state first >>= fun middle =>
      runAll perform middle rest) := by
  induction first generalizing state with
  | nil => rfl
  | cons call others inductionHypothesis =>
    simp only [cons_append, runAll]
    cases perform state call with
    | error => rfl
    | ok => exact inductionHypothesis

variable {first rest : List κ} (meets : RunMeets perform condition state (first ++ rest))

include meets

theorem RunMeets.append {middle : σ} (ran : runAll perform state first = .ok middle) :
    RunMeets perform condition middle rest := by
  induction first generalizing state with
  | nil =>
    cases ran
    exact meets
  | cons call others inductionHypothesis =>
    obtain ⟨after, performed, ranOthers⟩ := of_bind ran
    exact inductionHypothesis (meets.2 after performed) ranOthers

theorem RunMeets.left : RunMeets perform condition state first := by
  induction first generalizing state with
  | nil => trivial
  | cons call others inductionHypothesis =>
    exact ⟨meets.1, fun after performed =>
      inductionHypothesis (meets.2 after performed)⟩

end LumioNode.Library
