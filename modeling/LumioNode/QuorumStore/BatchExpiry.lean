import LumioNode.QuorumStore.BatchQuotas
import Mathlib.Data.Fintype.Pi

/-! # Expiry of cached batches

A value is cached before it is in the heap.  Unless an update comes in between, heap
entries are cached, and what outlived an update is removed by the next. -/

namespace LumioNode.QuorumStore

open Library RunMeets TimeExpirations List

variable {P : Type}

def BatchStore.CachedFrom (store : BatchStore P) (digest : HashValue) (expiration : Nat) : Prop :=
  ∃ value, store.dbCache.lookup digest = some value ∧ expiration ≤ value.expiration

namespace BatchStore

/-- At the start every cached value is in the heap. -/
structure StartFacts (store : BatchStore P) : Prop where
  balanced : store.Balanced
  heap : ∀ expiration digest, (expiration, digest) ∈ store.expirations.expiries →
      store.CachedFrom digest expiration
  covered : ∀ digest value, store.dbCache.lookup digest = some value →
    (value.expiration, digest) ∈ store.expirations.expiries

variable {store after : BatchStore P} {dbContent : List (PersistedValue P)}

theorem cachedFrom_insert {digest : HashValue} {stored : PersistedValue P}
    (isInsert : after.dbCache = store.dbCache.insert digest stored)
    (isLater : ∀ current, store.dbCache.lookup digest = some current → current.expiration <
      stored.expiration) {other : HashValue} {expiration : Nat}
    (isCached : store.CachedFrom other expiration) : after.CachedFrom other expiration := by
  obtain ⟨value, isValue, isBefore⟩ := isCached
  by_cases same : other = digest
  · subst same
    refine ⟨stored, by rw [isInsert, AList.lookup_insert], ?_⟩
    exact isBefore.trans (isLater value isValue).le
  · refine ⟨value, ?_, isBefore⟩
    rw [isInsert, AList.lookup_insert_ne same]
    exact isValue

theorem empty_facts (config : StoreConfig) (lastCertifiedTime : Nat) :
    (empty config lastCertifiedTime : BatchStore P).StartFacts where
  balanced := by
    refine ⟨?_, ?_⟩
    · intro author kind
      cases kind <;> rfl
    · intro author kind
      cases kind <;> rfl
  heap := nofun
  covered := nofun

theorem StartFacts.populate (facts : store.StartFacts)
    {value : PersistedValue P} (hasPayload : value.maybePayload.isSome)
    (populated : store.populate value = .ok after) :
    after.StartFacts ∧ after.config = store.config := by
  unfold BatchStore.populate at populated
  split at populated
  · cases populated
    exact ⟨facts, rfl⟩
  · obtain ⟨middle, outcome, updated, entry⟩ := facts.balanced.updateEntry hasPayload
    simp only [insertToCache, updated, ok_bind] at populated
    rcases entry.cache with ⟨notStored, same⟩ | ⟨rfl, stored, sameTime, isInsert, isLater⟩
    · cases outcome with
      | stored => exact absurd rfl notStored
      | refused => cases populated
      | unchanged =>
        cases populated
        refine ⟨⟨entry.balanced, ?_, ?_⟩, entry.config⟩
        · intro expiration digest inHeap
          rw [entry.expirations] at inHeap
          have isCached := facts.heap expiration digest inHeap
          unfold CachedFrom at isCached ⊢
          rw [same]
          exact isCached
        · intro digest found isFound
          rw [same] at isFound
          rw [entry.expirations]
          exact facts.covered digest found isFound
    · cases populated
      refine ⟨⟨⟨entry.balanced.quotas, entry.balanced.balances⟩, ?_, ?_⟩, entry.config⟩
      · intro expiration digest inHeap
        rcases mem_addItem.mp inHeap with isNew | wasInHeap
        · cases isNew
          refine ⟨stored, ?_, sameTime.ge⟩
          change middle.dbCache.lookup _ = _
          rw [isInsert, AList.lookup_insert]
        · rw [entry.expirations] at wasInHeap
          exact cachedFrom_insert isInsert (sameTime ▸ isLater)
            (facts.heap expiration digest wasInHeap)
      · intro digest found isFound
        change middle.dbCache.lookup digest = some found at isFound
        rw [isInsert, Table.lookup_insert_eq] at isFound
        refine mem_addItem.mpr ?_
        split at isFound
        · rename_i isDigest
          cases isFound
          exact .inl (by rw [isDigest, sameTime])
        · rw [entry.expirations]
          exact .inr (facts.covered digest found isFound)

theorem foldlM_populate_facts (facts : store.StartFacts)
    (payloads : ∀ value ∈ dbContent, value.maybePayload.isSome)
    (populated : dbContent.foldlM populate store = .ok after) :
    after.StartFacts ∧ after.config = store.config := by
  induction dbContent generalizing store with
  | nil =>
    cases populated
    exact ⟨facts, rfl⟩
  | cons value rest inductionHypothesis =>
    obtain ⟨middle, first, others⟩ := of_bind populated
    obtain ⟨middleFacts, sameConfig⟩ := facts.populate (payloads value mem_cons_self) first
    obtain ⟨afterFacts, stillSame⟩ :=
      inductionHypothesis middleFacts (forall_mem_cons.mp payloads).2 others
    exact ⟨afterFacts, stillSame.trans sameConfig⟩

end BatchStore

namespace BatchSystem

/-- Whatever is pushed or persisted for a digest taken from the heap expires later. -/
structure Awaits (system : BatchSystem P) (digest : HashValue) (expirationTime : Nat) : Prop where
  isCached : system.store.CachedFrom digest 0
  heap : ∀ expiration, (expiration, digest) ∈ system.store.expirations.expiries →
      expirationTime < expiration
  persists : ∀ call stage, system.persists call = some stage →
    stage.digest = digest → expirationTime < stage.expiration

/-- Some update that is removing digests will remove the value. -/
def Doomed (system : BatchSystem P) (digest : HashValue) (expiration : Nat) : Prop :=
  ∃ call certifiedTime expirationTime pending, system.updates call =
        some (.removing certifiedTime expirationTime pending) ∧
      digest ∈ pending ∧ expiration ≤ expirationTime

structure Facts (system : BatchSystem P) : Prop where
  balanced : system.store.Balanced
  payloads : ∀ call value, system.persists call = some (.checked value) → value.maybePayload.isSome
  heap : ∀ expiration digest, (expiration, digest) ∈ system.store.expirations.expiries →
      system.store.CachedFrom digest expiration
  gap : ∀ call digest expiration, system.persists call = some (.cached digest expiration) →
      system.store.CachedFrom digest expiration
  covered : ∀ digest value, system.store.dbCache.lookup digest = some value →
      (value.expiration, digest) ∈ system.store.expirations.expiries ∨
        (∃ call, system.persists call = some (.cached digest value.expiration)) ∨
        system.Doomed digest value.expiration
  started : ∀ call certifiedTime, system.updates call = some (.started certifiedTime) →
      certifiedTime ≤ system.store.lastCertifiedTime
  single : ∀ call certifiedTime expirationTime pending, system.updates call =
        some (.removing certifiedTime expirationTime pending) →
      ∀ other otherTime otherExpiration others, system.updates other =
        some (.removing otherTime otherExpiration others) → other = call
  removing : ∀ call certifiedTime expirationTime pending, system.updates call =
        some (.removing certifiedTime expirationTime pending) →
      expirationTime ≤ system.store.lastCertifiedTime ∧
        ∀ digest ∈ pending, system.Awaits digest expirationTime

/-- No other update is removing, due cached values are in the heap, no checked call persists a
due value for a digest that is taken, and certified times do not go back. -/
structure QuietExpiry (system : BatchSystem P) (certifiedTime : Nat) : Prop where
  alone : ∀ other otherTime otherExpiration others, system.updates other ≠
      some (.removing otherTime otherExpiration others)
  noGap : ∀ call digest expiration, system.persists call = some (.cached digest expiration) →
      certifiedTime - system.store.config.expirationBufferUsecs < expiration
  noLate : ∀ call value, system.persists call = some (.checked value) →
    value.digest ∈ (system.store.expirations.expire
      (certifiedTime - system.store.config.expirationBufferUsecs)).1 →
        certifiedTime - system.store.config.expirationBufferUsecs < value.expiration
  forward : ∀ earlier ∈ system.completed, earlier ≤ certifiedTime

def Calm (system : BatchSystem P) : BatchAction P → Prop
  | .checkExpiration _ value => value.maybePayload.isSome
  | .expireHeap call => ∀ certifiedTime,
      system.updates call = some (.started certifiedTime) → system.QuietExpiry certifiedTime
  | _ => True

section Actions

variable {system after : BatchSystem P} {stage : PersistStage P} {value : PersistedValue P}
  {digest : HashValue} {call certifiedTime expirationTime expiration : Nat}

theorem QuietExpiry.late (quiet : system.QuietExpiry certifiedTime)
    (isTime : expirationTime = certifiedTime - system.store.config.expirationBufferUsecs)
    (isTaken : digest ∈ (system.store.expirations.expire expirationTime).1)
    (isStage : system.persists call = some stage)
    (sameDigest : stage.digest = digest) : expirationTime < stage.expiration := by
  subst isTime sameDigest
  cases stage with
  | checked value => exact quiet.noLate call value isStage isTaken
  | cached gapDigest gapTime => exact quiet.noGap call _ gapTime isStage

/-- What an action does that is performed. -/
inductive Step (system : BatchSystem P) : BatchSystem P → Prop where
  | refuse : system.Step system
  | check {call : Nat} {value : PersistedValue P} :
      system.persists call = none →
      system.store.lastCertifiedTime < value.expiration →
      value.maybePayload.isSome →
      system.Step (system.setPersist call (some (.checked value)))
  | update {call : Nat} {value : PersistedValue P} {store : BatchStore P}
      {outcome : EntryOutcome} :
      system.persists call = some (.checked value) →
      system.store.EntryUpdated value store outcome →
      system.Step ((system.setStore store).setPersist call (if outcome = .stored then
          some (.cached value.digest value.expiration) else none))
  | push {call : Nat} {digest : HashValue} {expiration : Nat} :
      system.persists call = some (.cached digest expiration) →
      system.Step ((system.setStore
        (system.store.addExpiration digest expiration)).setPersist call none)
  | raise {call certifiedTime : Nat} : system.updates call = none →
      system.Step ((system.setStore { system.store with
        lastCertifiedTime := max system.store.lastCertifiedTime certifiedTime }
          ).setUpdate call (some (.started certifiedTime)))
  | expire {call certifiedTime expirationTime : Nat} :
      expirationTime = certifiedTime - system.store.config.expirationBufferUsecs →
      system.updates call = some (.started certifiedTime) →
      system.QuietExpiry certifiedTime →
      system.Step ((system.setStore { system.store with
        expirations := (system.store.expirations.expire expirationTime).2 }
          ).setUpdate call (some (.removing certifiedTime expirationTime
            (system.store.expirations.expire expirationTime).1.toFinset)))
  | remove {call certifiedTime expirationTime : Nat}
      {pending : Finset HashValue} {digest : HashValue}
      {value : PersistedValue P} {store : BatchStore P} :
      system.updates call = some (.removing certifiedTime expirationTime pending) →
      digest ∈ pending → system.store.dbCache.lookup digest = some value →
      system.store.EntryRemoved digest value expirationTime store →
      system.Step ((system.setStore store).setUpdate call
        (some (.removing certifiedTime expirationTime (pending.erase digest))))
  | finish {call certifiedTime expirationTime : Nat} :
      system.updates call = some (.removing certifiedTime expirationTime ∅) →
      system.Step { system.setUpdate call none with
        completed := certifiedTime :: system.completed }

@[grind =]
theorem persists_setPersist (call other : Nat) (stage : Option (PersistStage P)) :
    (system.setPersist call stage).persists other =
      if other = call then stage else system.persists other :=
  Function.update_apply ..

@[grind =]
theorem updates_setUpdate (call other : Nat) (stage : Option UpdateStage) :
    (system.setUpdate call stage).updates other =
      if other = call then stage else system.updates other :=
  Function.update_apply ..

@[grind =]
theorem updates_setPersist (call other : Nat) (stage : Option (PersistStage P)) :
    (system.setPersist call stage).updates other = system.updates other := rfl

@[grind =]
theorem persists_setUpdate (call other : Nat) (stage : Option UpdateStage) :
    (system.setUpdate call stage).persists other = system.persists other := rfl

@[grind =]
theorem persists_setStore (store : BatchStore P) (call : Nat) :
    (system.setStore store).persists call = system.persists call := rfl

@[grind =]
theorem updates_setStore (store : BatchStore P) (call : Nat) :
    (system.setStore store).updates call = system.updates call := rfl

@[grind =]
theorem store_setPersist (call : Nat) (stage : Option (PersistStage P)) :
    (system.setPersist call stage).store = system.store := rfl

@[grind =]
theorem store_setUpdate (call : Nat) (stage : Option UpdateStage) :
    (system.setUpdate call stage).store = system.store := rfl

@[grind =]
theorem store_setStore (store : BatchStore P) : (system.setStore store).store = store := rfl

attribute [grind =] PersistStage.digest PersistStage.expiration mem_addItem mem_left
  mem_expired BatchStore.addExpiration Table.lookup_insert_eq

section Step

variable (step : system.Step after)

include step

theorem Step.config : after.store.config = system.store.config := by
  cases step with
  | update _ updated => exact updated.config
  | remove _ _ _ removed => exact removed.config
  | _ => rfl

theorem Step.lastCertifiedTime :
    system.store.lastCertifiedTime ≤ after.store.lastCertifiedTime := by
  cases step with
  | update _ updated => exact updated.lastCertifiedTime.ge
  | remove _ _ _ removed => exact removed.lastCertifiedTime.ge
  | raise => exact le_max_left _ _
  | _ => exact le_rfl

theorem Step.persists (isStage : after.persists call = some stage) :
    (∃ before, system.persists call = some before ∧
        before.digest = stage.digest ∧ before.expiration = stage.expiration) ∨
      system.store.lastCertifiedTime < stage.expiration := by
  cases step <;> grind

/-- A cached value stays, a later one replaces it, or an update removes its digest. -/
theorem Step.cache
    (isStored : system.store.dbCache.lookup digest = some value) :
    (∃ next, after.store.dbCache.lookup digest = some next ∧ value.expiration ≤ next.expiration) ∨
      ∃ call certifiedTime expirationTime pending, system.updates call =
          some (.removing certifiedTime expirationTime pending) ∧
        digest ∈ pending ∧ value.expiration ≤ expirationTime ∧
        after.updates call = some (.removing certifiedTime expirationTime
          (pending.erase digest)) := by
  cases step with
  | update _ updated =>
    have isCache := updated.cache
    grind
  | remove isRemoving isPending isValue removed =>
    have isCache := removed.cache digest
    grind
  | _ => exact .inl ⟨value, isStored, le_rfl⟩

theorem Step.cached
    (isStored : after.store.dbCache.lookup digest = some value) :
    system.store.dbCache.lookup digest = some value ∨
      ∃ call, after.persists call = some (.cached digest value.expiration) := by
  cases step with
  | @update call checked store outcome isChecked updated =>
    rcases updated.cache with ⟨_, same⟩ | ⟨isNew, stored, sameTime, isInsert, _⟩
    · exact .inl (same ▸ isStored)
    · by_cases isDigest : digest = checked.digest
      · exact .inr ⟨call, by grind⟩
      · exact .inl (by grind)
  | remove _ _ _ removed =>
    have isCache := removed.cache digest
    grind
  | _ => exact .inl isStored

theorem Step.heap (inHeap : (expiration, digest) ∈ after.store.expirations.expiries) :
    (expiration, digest) ∈ system.store.expirations.expiries ∨
      ∃ call, system.persists call = some (.cached digest expiration) := by
  cases step with
  | update _ updated => exact .inl (updated.expirations ▸ inHeap)
  | remove _ _ _ removed => exact .inl (removed.expirations ▸ inHeap)
  | _ => grind

theorem Step.heap_stays (inHeap : (expiration, digest) ∈ system.store.expirations.expiries) :
    (expiration, digest) ∈ after.store.expirations.expiries ∨ after.Doomed digest expiration := by
  cases step with
  | update _ updated => exact .inl (updated.expirations ▸ inHeap)
  | remove _ _ _ removed => exact .inl (removed.expirations ▸ inHeap)
  | @expire call certifiedTime expirationTime _ _ _ =>
    by_cases isDue : expiration ≤ expirationTime
    · exact .inr ⟨call, certifiedTime, expirationTime,
        (system.store.expirations.expire expirationTime).1.toFinset, by grind,
        mem_toFinset.mpr (mem_expired.mpr ⟨_, isDue, inHeap⟩), isDue⟩
    · exact .inl (by grind)
  | _ => grind

theorem Step.gap_stays
    (isGap : system.persists call = some (.cached digest expiration)) :
    (expiration, digest) ∈ after.store.expirations.expiries ∨
      after.persists call = some (.cached digest expiration) := by
  cases step <;> grind

/-- The digests that an update is removing stay awaited while they are pending. -/
theorem Step.awaits
    (isPast : expirationTime ≤ system.store.lastCertifiedTime)
    (awaits : system.Awaits digest expirationTime) (isCached : after.store.CachedFrom digest 0) :
    after.Awaits digest expirationTime := by
  refine ⟨isCached, ?_, ?_⟩
  · intro expiration inHeap
    rcases step.heap inHeap with wasInHeap | ⟨call, isGap⟩
    · exact awaits.heap expiration wasInHeap
    · exact awaits.persists call _ isGap rfl
  · intro call stage isStage sameDigest
    rcases step.persists isStage with
      ⟨before, isBefore, isDigest, isTime⟩ | isFresh
    · exact isTime ▸ awaits.persists call before isBefore (isDigest.trans sameDigest)
    · exact isPast.trans_lt isFresh

end Step

/-! ## What steps keep -/

section Facts

variable (facts : system.Facts) (step : system.Step after)

include facts step

theorem Step.balanced : after.store.Balanced := by
  have ⟨quotas, balances⟩ := facts.balanced
  cases step with
  | update _ updated => exact updated.balanced
  | remove _ _ _ removed => exact removed.balanced
  | _ => exact ⟨quotas, balances⟩

/-- What is in the heap or about to be pushed keeps its digest cached. -/
theorem Step.cachedFrom
    (isCached : system.store.CachedFrom digest expiration)
    (isLater : ∀ expirationTime, system.Awaits digest expirationTime →
      expirationTime < expiration) :
    after.store.CachedFrom digest expiration := by
  obtain ⟨value, isValue, isBefore⟩ := isCached
  rcases step.cache isValue with ⟨next, isNext, isAfter⟩ |
    ⟨call, certifiedTime, expirationTime, pending, isRemoving, isPending, isDue,
      _⟩
  · exact ⟨next, isNext, isBefore.trans isAfter⟩
  · have awaits := (facts.removing call certifiedTime expirationTime pending
      isRemoving).2 digest isPending
    have later := isLater expirationTime awaits
    omega

theorem Step.heap_cached (expiration : Nat) (digest : HashValue)
    (inHeap : (expiration, digest) ∈ after.store.expirations.expiries) :
    after.store.CachedFrom digest expiration := by
  rcases step.heap inHeap with wasInHeap | ⟨call, isGap⟩
  · exact step.cachedFrom facts (facts.heap _ _ wasInHeap)
      fun _ awaits => awaits.heap expiration wasInHeap
  · exact step.cachedFrom facts (facts.gap _ _ _ isGap)
      fun _ awaits => awaits.persists call _ isGap rfl

theorem Step.gap (call : Nat) (digest : HashValue) (expiration : Nat)
    (isGap : after.persists call = some (.cached digest expiration)) :
    after.store.CachedFrom digest expiration := by
  have old (wasGap : system.persists call = some (.cached digest expiration)) :=
    step.cachedFrom facts (facts.gap _ _ _ wasGap) fun _ awaits => awaits.persists call _ wasGap rfl
  cases step with
  | update isChecked updated =>
    have isCache := updated.cache
    grind [BatchStore.CachedFrom]
  | _ => grind

theorem Step.covered (digest : HashValue) (value : PersistedValue P)
    (isStored : after.store.dbCache.lookup digest = some value) :
    (value.expiration, digest) ∈ after.store.expirations.expiries ∨
      (∃ call, after.persists call = some (.cached digest value.expiration)) ∨
      after.Doomed digest value.expiration := by
  rcases step.cached isStored with wasStored | isGap
  case inr => exact .inr (.inl isGap)
  rcases facts.covered digest value wasStored with inHeap | ⟨other, isGap⟩ |
    ⟨other, otherTime, expirationTime, pending, isRemoving, isPending, isDue⟩
  · exact (step.heap_stays inHeap).imp_right .inr
  · rcases step.gap_stays isGap with inHeap | stillGap
    · exact .inl inHeap
    · exact .inr (.inl ⟨other, stillGap⟩)
  · refine .inr (.inr ?_)
    cases step with
    | expire _ _ quiet => exact absurd isRemoving (quiet.alone other _ _ _)
    | @remove call certifiedTime _ _ removedDigest _ _ isOther _ isValue removed =>
      have isSame := facts.single _ _ _ _ isOther other _ _ _ isRemoving
      have isCache := removed.cache digest
      refine ⟨other, otherTime, expirationTime, pending.erase removedDigest,
        ?_, Finset.mem_erase.mpr ⟨?_, isPending⟩, isDue⟩
      all_goals grind
    | finish isOther =>
      have isSame := facts.single _ _ _ _ isOther other _ _ _ isRemoving
      grind
    | _ => exact ⟨other, otherTime, expirationTime, pending, by grind, isPending,
        isDue⟩

theorem Step.started (call certifiedTime : Nat)
    (isStarted : after.updates call = some (.started certifiedTime)) :
    certifiedTime ≤ after.store.lastCertifiedTime := by
  have before := facts.started call certifiedTime
  have isLater := step.lastCertifiedTime
  cases step <;> grind

section

variable (call certifiedTime expirationTime) (pending : Finset HashValue)
  (isRemoving : after.updates call = some (.removing certifiedTime expirationTime pending))

include call certifiedTime expirationTime pending isRemoving

theorem Step.single (other otherTime otherExpiration : Nat) (others : Finset HashValue)
    (isOther : after.updates other = some (.removing otherTime otherExpiration others)) :
    other = call := by
  have single := facts.single
  cases step with
  | expire _ _ quiet =>
    have alone := quiet.alone
    grind
  | _ => grind

theorem Step.removing : expirationTime ≤ after.store.lastCertifiedTime ∧
    ∀ digest ∈ pending, after.Awaits digest expirationTime := by
  by_cases wasRemoving : ∃ before, pending ⊆ before ∧ system.updates call =
        some (.removing certifiedTime expirationTime before)
  · obtain ⟨before, isPart, wasRemoving⟩ := wasRemoving
    obtain ⟨isPast, awaits⟩ := facts.removing _ _ _ _ wasRemoving
    refine ⟨isPast.trans step.lastCertifiedTime, ?_⟩
    intro digest isPending
    have waiting := awaits digest (isPart isPending)
    obtain ⟨value, isValue, _⟩ := waiting.isCached
    refine step.awaits isPast waiting ?_
    rcases step.cache isValue with ⟨next, isNext, _⟩ |
      ⟨other, _, _, others, isOther, _, _, afterOther⟩
    · exact ⟨next, isNext, Nat.zero_le _⟩
    · have isSame := facts.single _ _ _ _ wasRemoving other _ _ _ isOther
      grind
  · cases step with
    | @expire update startedTime _ isTime isStarted quiet =>
      rw [updates_setUpdate] at isRemoving
      split at isRemoving
      case isFalse => exact absurd ⟨pending, subset_rfl, isRemoving⟩ wasRemoving
      cases isRemoving
      have atMost := facts.started _ _ isStarted
      refine ⟨by grind, ?_⟩
      intro digest isPending
      have isTaken := mem_toFinset.mp isPending
      obtain ⟨expiration, _, inHeap⟩ := mem_expired.mp isTaken
      obtain ⟨value, isValue, _⟩ := facts.heap expiration digest inHeap
      refine ⟨⟨value, isValue, Nat.zero_le _⟩, ?_, ?_⟩
      · intro left inLeft
        exact (mem_left.mp inLeft).2
      · exact fun other stage isStage => quiet.late isTime isTaken isStage
    | _ => grind

end

end Facts

theorem Facts.step (facts : system.Facts) (step : system.Step after) : after.Facts where
  balanced := step.balanced facts
  payloads := by
    have payloads := facts.payloads
    intro call value isChecked
    cases step <;> grind
  heap := step.heap_cached facts
  gap := step.gap facts
  covered := step.covered facts
  started := step.started facts
  single _ _ _ := step.single _ _ _ facts
  removing _ _ _ := step.removing _ _ _ facts

/-! ## The steps that actions make -/

def Steps (system : BatchSystem P) (outcome : Except Fault (BatchSystem P)) : Prop :=
  outcome ≠ .error .panic ∧ ∀ after, outcome = .ok after → system.Step after

theorem Step.steps (step : system.Step after) : system.Steps (.ok after) := by
  refine ⟨by simp, ?_⟩
  intro result isResult
  cases isResult
  exact step

theorem steps_notEnabled : system.Steps notEnabled := ⟨nofun, nofun⟩

theorem Facts.perform_steps (facts : system.Facts) {action : BatchAction P}
    (calm : system.Calm action) : system.Steps (system.perform action) := by
  cases action with
  | checkExpiration call value =>
    apply safe_ensure
    intro isFree
    split
    · rename_i isFresh
      exact (Step.check (Option.isNone_iff_eq_none.mp isFree) isFresh calm).steps
    · exact Step.refuse.steps
  | updateCacheEntry call =>
    simp only [perform, updateCacheEntry]
    split
    · rename_i value isChecked
      obtain ⟨store, outcome, updated, entry⟩ :=
        facts.balanced.updateEntry (facts.payloads call value isChecked)
      rw [updated, ok_bind]
      exact (Step.update isChecked entry).steps
    · exact steps_notEnabled
  | insertExpiration =>
    simp only [perform, insertExpiration]
    split
    · exact (Step.push ‹_›).steps
    · exact steps_notEnabled
  | raiseTime =>
    apply safe_ensure
    intro isFree
    exact (Step.raise (Option.isNone_iff_eq_none.mp isFree)).steps
  | expireHeap call =>
    simp only [perform, expireHeap]
    split
    · rename_i certifiedTime isStarted
      exact (Step.expire rfl isStarted (calm certifiedTime isStarted)).steps
    · exact steps_notEnabled
  | removeDigest call digest =>
    simp only [perform, removeDigest]
    split
    · rename_i certifiedTime expirationTime pending isRemoving
      apply safe_ensure
      intro isPending
      have waiting := (facts.removing _ _ _ _ isRemoving).2 digest isPending
      obtain ⟨value, isValue, _⟩ := waiting.isCached
      obtain ⟨store, isRemoved, removed⟩ := facts.balanced.removeExpired isValue
      rw [isRemoved, ok_bind]
      exact (Step.remove isRemoving isPending isValue removed).steps
    · exact steps_notEnabled
  | finishUpdate call =>
    simp only [perform, finishUpdate]
    split
    · rename_i certifiedTime expirationTime pending isRemoving
      apply safe_ensure
      rintro rfl
      exact (Step.finish isRemoving).steps
    · exact steps_notEnabled

theorem start_facts {store : BatchStore P} (facts : store.StartFacts) : (start store).Facts where
  balanced := facts.balanced
  payloads := nofun
  heap := facts.heap
  gap := nofun
  covered := fun digest value isStored =>
    .inl (facts.covered digest value isStored)
  started := nofun
  single := nofun
  removing := nofun

/-! ## What an update removes -/

/-- An update is about to remove a digest, or nothing due is cached for it. -/
structure Settles (update : Nat) (digest : HashValue) (expirationTime : Nat)
    (system : BatchSystem P) : Prop where
  isPast : expirationTime ≤ system.store.lastCertifiedTime
  persists : ∀ call stage, system.persists call = some stage →
    stage.digest = digest → expirationTime < stage.expiration
  gone : (∃ certifiedTime pending, system.updates update =
        some (.removing certifiedTime expirationTime pending) ∧
      digest ∈ pending) ∨
    ∀ value, system.store.dbCache.lookup digest = some value → expirationTime < value.expiration

section Settles

variable {update : Nat}

theorem Settles.step (settles : system.Settles update digest expirationTime)
    (step : system.Step after) : after.Settles update digest expirationTime := by
  refine ⟨settles.isPast.trans step.lastCertifiedTime, ?_, ?_⟩
  · intro call stage isStage sameDigest
    rcases step.persists isStage with
      ⟨before, isBefore, isDigest, isTime⟩ | isFresh
    · exact isTime ▸ settles.persists call before isBefore (isDigest.trans sameDigest)
    · exact settles.isPast.trans_lt isFresh
  · rcases settles.gone with ⟨time, pending, isUpdate, isPending⟩ | isGone
    · cases step with
      | @remove call _ _ _ removed _ _ isCall _ isValue entry =>
        have isCache := entry.cache digest
        by_cases isOther : update = call → digest ≠ removed
        · exact .inl ⟨time, if update = call then pending.erase removed
            else pending, by grind, by grind⟩
        · exact .inr (by grind)
      | _ => exact .inl ⟨time, pending, by grind, isPending⟩
    · have persists := settles.persists
      refine .inr fun value isStored => ?_
      cases step with
      | update isChecked updated =>
        have isCache := updated.cache
        grind
      | remove _ _ _ entry =>
        have isCache := entry.cache digest
        grind
      | _ => exact isGone value isStored

theorem Facts.settles_of_expireHeap (facts : system.Facts)
    (quiet : ∀ certifiedTime, system.updates call = some (.started certifiedTime) →
      system.QuietExpiry certifiedTime) (performed : system.expireHeap call = .ok after)
    (isStored : system.store.dbCache.lookup digest = some value)
    {earlier : Nat} (isCompleted : earlier ∈ system.completed)
    (isDue : value.expiration + system.store.config.expirationBufferUsecs ≤ earlier) :
    ∃ expirationTime, value.expiration ≤ expirationTime ∧
      after.Settles call digest expirationTime := by
  unfold expireHeap at performed
  split at performed
  · rename_i certifiedTime isStarted
    have calm := quiet certifiedTime isStarted
    have isForward := calm.forward earlier isCompleted
    have isExpired : value.expiration ≤
        certifiedTime - system.store.config.expirationBufferUsecs := by
      omega
    cases performed
    have isTaken : digest ∈ (system.store.expirations.expire (certifiedTime -
        system.store.config.expirationBufferUsecs)).1 := by
      rcases facts.covered digest value isStored with
        inHeap | ⟨other, isGap⟩ | ⟨other, _, _, _, isRemoving, _⟩
      · exact mem_expired.mpr ⟨_, isExpired, inHeap⟩
      · have isLater := calm.noGap other digest value.expiration isGap
        omega
      · exact absurd isRemoving (calm.alone other _ _ _)
    refine ⟨_, isExpired, ?_, fun _ _ => calm.late rfl isTaken,
      .inl ⟨certifiedTime, _, ?_, mem_toFinset.mpr isTaken⟩⟩
    · exact (Nat.sub_le _ _).trans (facts.started call certifiedTime isStarted)
    · rw [updates_setUpdate, if_pos rfl]
  · cases performed

theorem Settles.finished (settles : system.Settles update digest expirationTime)
    (performed : system.finishUpdate update = .ok after) {other : PersistedValue P}
    (isStored : after.store.dbCache.lookup digest = some other) :
    expirationTime < other.expiration := by
  unfold finishUpdate at performed
  split at performed
  · rename_i certifiedTime otherExpiration pending isCall
    obtain ⟨isDone, changed⟩ := of_ensure_bind performed
    cases changed
    rcases settles.gone with ⟨_, others, isUpdate, isPending⟩ | isGone
    · rw [isCall] at isUpdate
      cases isUpdate
      rw [isDone] at isPending
      cases isPending
    · exact isGone other isStored
  · cases performed

end Settles

end Actions

section Runs

variable {system reached : BatchSystem P} {actions : List (BatchAction P)}

theorem Facts.run (facts : system.Facts) (calm : RunMeets perform Calm system actions) :
    runAll perform system actions ≠ .error .panic ∧
      ∀ reached, runAll perform system actions = .ok reached →
        reached.Facts ∧ reached.store.config = system.store.config := by
  refine calm.safe (fun reached => reached.Facts ∧
    reached.store.config = system.store.config) ⟨facts, rfl⟩ ?_
  rintro before action _ ⟨facts, same⟩ calm
  obtain ⟨notPanic, steps⟩ := facts.perform_steps calm
  refine ⟨notPanic, fun after performed => ?_⟩
  have step := steps after performed
  exact ⟨facts.step step, step.config.trans same⟩

theorem Settles.run {update expirationTime : Nat} {digest : HashValue}
    (settles : system.Settles update digest expirationTime)
    (facts : system.Facts) (calm : RunMeets perform Calm system actions)
    (ran : runAll perform system actions = .ok reached) :
    reached.Settles update digest expirationTime := by
  induction actions generalizing system with
  | nil =>
    cases ran
    exact settles
  | cons action rest inductionHypothesis =>
    obtain ⟨after, performed, ranRest⟩ := of_bind ran
    have step := (facts.perform_steps calm.1).2 after performed
    exact inductionHypothesis (settles.step step) (facts.step step) (calm.2 after performed) ranRest

/-- While heap expiries are quiet no call panics, balances and charges add up to the quotas, and
a value due at a completed update is gone after the next. -/
theorem safe_of_calm {config : StoreConfig} {lastCertifiedTime : Nat}
    {dbContent : List (PersistedValue P)} {store : BatchStore P}
    (payloads : ∀ value ∈ dbContent, value.maybePayload.isSome)
    (created : BatchStore.new config lastCertifiedTime dbContent = .ok store)
    (calm : RunMeets perform Calm (start store) actions) :
    runAll perform (start store) actions ≠ .error .panic ∧
      ∀ reached, runAll perform (start store) actions = .ok reached →
        (∀ author kind, (reached.store.managerOf author).balance kind +
          reached.store.charged author kind = config.quota kind) ∧
        ∀ before call middle between, actions = before ++
              (.expireHeap call :: (middle ++ [.finishUpdate call])) →
            runAll perform (start store) before = .ok between → ∀ digest value earlier,
                between.store.dbCache.lookup digest = some value →
                earlier ∈ between.completed →
                value.expiration + config.expirationBufferUsecs ≤ earlier →
                  ∀ other, reached.store.dbCache.lookup digest = some other →
                    value.expiration < other.expiration := by
  obtain ⟨startFacts, startConfig⟩ := BatchStore.foldlM_populate_facts
    (BatchStore.empty_facts config lastCertifiedTime) payloads created
  have facts := start_facts startFacts
  refine ⟨(facts.run calm).1, ?_⟩
  intro reached ran
  obtain ⟨reachedFacts, sameConfig⟩ := (facts.run calm).2 reached ran
  have isConfig : reached.store.config = config := sameConfig.trans startConfig
  refine ⟨?_, ?_⟩
  · intro author kind
    have balances := reachedFacts.balanced.balances author kind
    rw [isConfig] at balances
    exact balances
  · intro before call middle between isRun ranBefore digest value earlier
      isStored isCompleted isDue other isOther
    subst isRun
    obtain ⟨betweenFacts, betweenConfig⟩ := (facts.run calm.left).2 between ranBefore
    have calmRest := calm.append ranBefore
    rw [runAll_append, ranBefore, ok_bind] at ran
    obtain ⟨expired, performed, ranRest⟩ := of_bind ran
    rw [runAll_append] at ranRest
    obtain ⟨last, ranMiddle, ranLast⟩ := of_bind ranRest
    obtain ⟨finished, finishes, isReached⟩ := of_bind ranLast
    cases isReached
    have buffer : between.store.config = config := betweenConfig.trans startConfig
    rw [← buffer] at isDue
    obtain ⟨expirationTime, isExpired, settles⟩ :=
      betweenFacts.settles_of_expireHeap calmRest.1 performed isStored isCompleted isDue
    have expiredFacts := betweenFacts.step
        ((betweenFacts.perform_steps calmRest.1).2 expired performed)
    have calmMiddle := (calmRest.2 expired performed).left
    have settled := settles.run expiredFacts calmMiddle ranMiddle
    exact isExpired.trans_lt (settled.finished finishes isOther)

/-- At rest every cached value is in the heap, and what is in the heap is cached and expires no
earlier. -/
theorem heap_covers_cache_at_rest {config : StoreConfig} {lastCertifiedTime : Nat}
    {dbContent : List (PersistedValue P)} {store : BatchStore P}
    (payloads : ∀ value ∈ dbContent, value.maybePayload.isSome)
    (created : BatchStore.new config lastCertifiedTime dbContent = .ok store)
    (calm : RunMeets perform Calm (start store) actions)
    (ran : runAll perform (start store) actions = .ok reached)
    (atRest : ∀ call, reached.persists call = none ∧ reached.updates call = none)
    (digest : HashValue) : (∀ value, reached.store.dbCache.lookup digest = some value →
      (value.expiration, digest) ∈ reached.store.expirations.expiries) ∧
    ∀ expiration, (expiration, digest) ∈ reached.store.expirations.expiries →
      ∃ value, reached.store.dbCache.lookup digest = some value ∧
        expiration ≤ value.expiration := by
  have started := BatchStore.foldlM_populate_facts
    (BatchStore.empty_facts config lastCertifiedTime) payloads created
  have facts := (((start_facts started.1).run calm).2 reached ran).1
  refine ⟨fun value isCached => ?_, fun expiration => facts.heap expiration digest⟩
  rcases facts.covered digest value isCached with
    inHeap | ⟨call, isGap⟩ | ⟨call, _, _, _, isLate, _⟩
  · exact inHeap
  · rw [(atRest call).1] at isGap
    cases isGap
  · rw [(atRest call).2] at isLate
    cases isLate

end Runs

namespace Toy

def config : StoreConfig := ⟨10, 10, 10, 2, le_rfl⟩

def value (expiration : Nat) : PersistedValue Unit := ⟨⟨0, 0, 1, expiration, 7, 1, 3, 0⟩, some ()⟩

def store : BatchStore Unit := .empty config 0

def persist (call expiration : Nat) : List (BatchAction Unit) :=
  [.checkExpiration call (value expiration), .updateCacheEntry call, .insertExpiration call]

/-- The digest is removed while an earlier value has not reached the heap. -/
def pushedLate : List (BatchAction Unit) :=
  [.checkExpiration 0 (value 5), .updateCacheEntry 0] ++ persist 1 6 ++
    [.raiseTime 0 8, .expireHeap 0, .removeDigest 0 7, .finishUpdate 0,
      .insertExpiration 0, .raiseTime 0 9, .expireHeap 0, .removeDigest 0 7]

/-- Two updates take the same digest from the heap. -/
def takenTwice : List (BatchAction Unit) := persist 0 5 ++ persist 0 6 ++
    [.raiseTime 0 7, .expireHeap 0, .raiseTime 1 8, .expireHeap 1,
      .removeDigest 1 7, .removeDigest 0 7]

def outlives : List (BatchAction Unit) :=
  [.checkExpiration 0 (value 5), .raiseTime 0 7, .expireHeap 0,
    .finishUpdate 0, .updateCacheEntry 0, .raiseTime 1 8, .expireHeap 1,
    .finishUpdate 1]

theorem expiry_panics_and_value_outlives : runAll perform (start store) pushedLate = .error .panic ∧
    runAll perform (start store) takenTwice = .error .panic ∧
    (runAll perform (start store) outlives).map (fun reached =>
        ((reached.store.dbCache.lookup 7).map PersistedValue.expiration,
          reached.completed)) = .ok (some 5, [8, 7]) :=
  ⟨rfl, rfl, rfl⟩

/-- A persist that is overtaken by an update before it is cached. -/
def overtaken : List (BatchAction Unit) :=
  [.checkExpiration 0 (value 5), .raiseTime 0 7, .expireHeap 0,
    .finishUpdate 0, .updateCacheEntry 0, .insertExpiration 0,
    .raiseTime 1 8]

def overtakenAndRemoved : List (BatchAction Unit) :=
  overtaken ++ (.expireHeap 1 :: ([.removeDigest 1 7] ++ [.finishUpdate 1]))

theorem persist_calm :
    RunMeets perform Calm (start store) (overtakenAndRemoved ++ persist 0 20) := by
  refine cons rfl rfl ?_
  refine cons rfl trivial ?_
  refine cons rfl ?_ ?_
  · intro certifiedTime isStarted
    cases isStarted
    refine ⟨?_, ?_, ?_, ?_⟩
    · intro other otherTime otherExpiration others isRemoving
      cases other <;> cases isRemoving
    · intro call digest expiration isGap
      cases call <;> cases isGap
    · nofun
    · intro earlier isCompleted
      cases isCompleted
  iterate 4 refine cons rfl trivial ?_
  refine cons rfl ?_ ?_
  · intro certifiedTime isStarted
    cases isStarted
    refine ⟨?_, ?_, ?_, ?_⟩
    · intro other otherTime otherExpiration others isRemoving
      rcases other with _ | _ | other <;> cases isRemoving
    · intro call digest expiration isGap
      cases call <;> cases isGap
    · intro call late isChecked
      cases call <;> cases isChecked
    · intro earlier isCompleted
      rcases mem_singleton.mp isCompleted with rfl
      decide
  iterate 2 refine cons rfl trivial ?_
  refine cons rfl rfl ?_
  exact cons rfl trivial (cons rfl trivial trivial)

/-- The value that the first update left is removed by the second. -/
theorem overtaken_removed : ∃ reached,
      runAll perform (start store) overtakenAndRemoved = .ok reached ∧
    ∀ other, reached.store.dbCache.lookup 7 = some other →
      (value 5).expiration < other.expiration :=
  ⟨_, rfl, ((safe_of_calm (forall_mem_nil _) rfl
    persist_calm.left).2 _ rfl).2 overtaken 1 [.removeDigest 1 7] _ rfl rfl 7
      (value 5) 7 rfl (mem_singleton_self 7) (by decide)⟩

theorem persisted_value_in_heap : ∃ reached, runAll perform (start store)
      (overtakenAndRemoved ++ persist 0 20) = .ok reached ∧
    (20, 7) ∈ reached.store.expirations.expiries :=
  ⟨_, rfl, (heap_covers_cache_at_rest (forall_mem_nil _) rfl persist_calm rfl
    (by rintro (_ | _ | _) <;> exact ⟨rfl, rfl⟩) 7).1 (value 20) rfl⟩

end Toy

end BatchSystem

end LumioNode.QuorumStore
