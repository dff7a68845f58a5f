import LumioNode.QuorumStore.BatchProofQueue
import Mathlib.Data.List.Dedup

/-! # The maps of the queue belong together

If author and batch id name one info, every item is in its queue and on the heap, and a
queue has nothing else; keys popped from the heap are pending. -/

namespace LumioNode.BatchProofQueue

open Library BatchSortKey TimeExpirations List Option AList

variable (batches : Table AccountAddress BatchQueue)

def entryAt
    (author : AccountAddress) (key : BatchSortKey) : Option BatchInfo :=
  (batches.lookup author).bind (·.get? key)

theorem get?_batchesOf (queue : BatchProofQueue) (author : AccountAddress) (key : BatchSortKey) :
    (queue.batchesOf author).get? key = entryAt queue.authorToBatches author key := by
  unfold batchesOf entryAt
  cases queue.authorToBatches.lookup author with
  | none | some => rfl

theorem entryAt_enqueue (queue : BatchProofQueue) (info : BatchInfo)
    (author : AccountAddress) (key : BatchSortKey) :
    entryAt (queue.enqueue info).authorToBatches author key =
      if author = info.author ∧ key = .fromInfo info then some info
      else entryAt queue.authorToBatches author key := by
  unfold entryAt enqueue
  simp only [Table.lookup_insert_eq]
  by_cases sameAuthor : author = info.author
  · subst sameAuthor
    simp only [if_true, bind_some, SortedMap.get?_insert, get?_batchesOf, true_and]
    rfl
  · simp [sameAuthor]

theorem entryAt_dequeue
    (info : BatchInfo) (author : AccountAddress) (key : BatchSortKey) :
    entryAt (dequeue batches info) author key =
      if author = info.author ∧ key = .fromInfo info then none
      else entryAt batches author key := by
  unfold dequeue
  split
  · rename_i absent
    split
    · rename_i same
      rw [same.1, entryAt, absent, bind_none]
    · rfl
  · rename_i found isFound
    unfold entryAt
    simp only [Table.lookup_insert_eq]
    by_cases sameAuthor : author = info.author
    · subst sameAuthor
      simp [SortedMap.get?_erase, isFound]
    · simp [sameAuthor]

theorem entryAt_dequeueAll
    (items : List QueueItem) (author : AccountAddress) (key : BatchSortKey) :
    entryAt (items.foldl (fun batches item => dequeue batches item.info) batches) author key =
      if ∃ item ∈ items, author = item.info.author ∧ key = .fromInfo item.info then none
      else entryAt batches author key := by
  induction items generalizing batches with
  | nil => simp
  | cons item rest inductionHypothesis =>
    rw [foldl_cons, inductionHypothesis, entryAt_dequeue, ← ite_or]
    exact if_congr (by rw [exists_mem_cons_iff, or_comm]) rfl rfl

theorem entryAt_without {batches : Table AccountAddress BatchQueue} {found : BatchQueue}
    {key : BatchSortKey} (isFound : batches.lookup key.author = some found)
    (author : AccountAddress) (other : BatchSortKey) :
    entryAt (if (found.erase key).isEmpty then batches.erase key.author
        else (batches.erase key.author).insert key.author (found.erase key)) author other =
      if author = key.author ∧ other = key then none
      else entryAt batches author other := by
  have erased : (found.erase key).get? other = if other = key then none else found.get? other :=
    SortedMap.get?_erase found key other
  unfold entryAt
  by_cases sameAuthor : author = key.author
  · subst sameAuthor
    rw [isFound]
    split
    · rename_i isEmpty
      rw [lookup_erase, bind_none]
      rw [SortedMap.isEmpty_iff.mp isEmpty other] at erased
      split
      · rfl
      · rename_i notKey
        rw [if_neg fun same => notKey ⟨rfl, same⟩] at erased
        rw [bind_some, ← erased]
    · rw [lookup_insert, bind_some, erased, bind_some]
      simp
  · simp only [sameAuthor, false_and, if_false]
    split
    · rw [lookup_erase_ne sameAuthor]
    · rw [lookup_insert_ne sameAuthor, lookup_erase_ne sameAuthor]

structure Named (names : BatchKey → BatchInfo) (gap : Nat) (info : BatchInfo) : Prop where
  isNamed : names (.fromInfo info) = info
  gap_le : gap ≤ info.expiration

/-- What is known of an item and the info that its key names. -/
structure ItemFits (latest gap : Nat) (pending : List BatchSortKey)
    (key : BatchKey) (info : BatchInfo) (item : QueueItem) : Prop where
  info_eq : item.info = info
  key_eq : BatchKey.fromInfo info = key
  gap_le : gap ≤ info.expiration
  proof_info : ∀ proof, item.proof = some proof → proof.info = info
  inserted : item.proofInsertionTime.isSome = item.proof.isSome
  unexpired : item.proof.isSome → latest < info.expiration ∨ fromInfo info ∈ pending

structure Filed (names : BatchKey → BatchInfo)
    (pending : List BatchSortKey) (queue : BatchProofQueue) : Prop where
  fits : ∀ key item, queue.items.lookup key = some item →
    ItemFits queue.latestBlockTimestamp queue.batchExpiryGapWhenInitUsecs
      pending key (names key) item
  queued : ∀ key item, queue.items.lookup key = some item →
    entryAt queue.authorToBatches key.author (.fromInfo (names key)) = some (names key)
  expiring : ∀ key item, queue.items.lookup key = some item →
    ((names key).expiration, fromInfo (names key)) ∈ queue.expirations.expiries ∨
      fromInfo (names key) ∈ pending
  entries : ∀ author key info, entryAt queue.authorToBatches author key = some info →
      key = .fromInfo info ∧ info.author = author ∧ names (.fromInfo info) = info ∧
        ∃ item, queue.items.lookup (.fromInfo info) = some item
  heap : ∀ expiry key, (expiry, key) ∈ queue.expirations.expiries →
    key = .fromInfo (names key.batchKey) ∧ expiry = (names key.batchKey).expiration

namespace Filed

variable {names : BatchKey → BatchInfo} {pending : List BatchSortKey} {queue : BatchProofQueue}

variable {item : QueueItem} {info : BatchInfo}

section

variable (filed : Filed names pending queue) (fits : ItemFits queue.latestBlockTimestamp
  queue.batchExpiryGapWhenInitUsecs pending (.fromInfo info) info item)

include filed fits

/-- An item of a named batch is put into the items, the queues and the heap. -/
theorem put {batches : Table AccountAddress BatchQueue}
    {expirations : TimeExpirations BatchSortKey} (isNamed : names (.fromInfo info) = info)
    (entries : ∀ author key, entryAt batches author key = if author = info.author ∧ key = .fromInfo
      info then some info else entryAt queue.authorToBatches author key)
    (listed : (info.expiration, .fromInfo info) ∈ expirations.expiries ∨ .fromInfo info ∈ pending)
    (heap : ∀ entry ∈ expirations.expiries, entry = (info.expiration, .fromInfo info) ∨
      entry ∈ queue.expirations.expiries)
    (more : queue.expirations.expiries ⊆ expirations.expiries) :
    Filed names pending
      { queue with
        authorToBatches := batches
        expirations := expirations
        items := queue.items.insert (.fromInfo info) item } := by
  have isStored {key : BatchKey} {other : QueueItem}
      (stored : (queue.items.insert (.fromInfo info) item).lookup key = some other) :
      (key = .fromInfo info ∧ other = item) ∨
        (key ≠ .fromInfo info ∧ queue.items.lookup key = some other) := by
    rw [Table.lookup_insert_eq] at stored
    split at stored <;> simp_all
  refine ⟨?_, ?_, ?_, ?_, ?_⟩
  · intro key other stored
    rcases isStored stored with ⟨rfl, rfl⟩ | ⟨_, stored⟩
    · rw [isNamed]
      exact fits
    · exact filed.fits key other stored
  · intro key other stored
    refine (entries _ _).trans ?_
    rcases isStored stored with ⟨rfl, rfl⟩ | ⟨different, stored⟩
    · rw [isNamed]
      exact if_pos ⟨rfl, rfl⟩
    · rw [if_neg, filed.queued key other stored]
      rintro ⟨-, sameKey⟩
      have keyEq := (filed.fits key other stored).key_eq
      exact different (keyEq.symm.trans (congrArg batchKey sameKey))
  · intro key other stored
    rcases isStored stored with ⟨rfl, rfl⟩ | ⟨_, stored⟩
    · rw [isNamed]
      exact listed
    · exact (filed.expiring key other stored).imp_left (more ·)
  · intro author key other isEntry
    have isEntry := (entries author key).symm.trans isEntry
    split at isEntry
    · rename_i same
      cases isEntry
      exact ⟨same.2, same.1.symm, isNamed, item, lookup_insert _⟩
    · obtain ⟨isKey, isAuthor, isNamed, found, stored⟩ := filed.entries author key other isEntry
      refine ⟨isKey, isAuthor, isNamed, isSome_iff_exists.mp ?_⟩
      rw [Table.lookup_insert_eq, stored]
      split <;> rfl
  · intro expiry key member
    rcases heap _ member with isNew | earlier
    · cases isNew
      rw [show names (fromInfo info).batchKey = info from isNamed]
      exact ⟨rfl, rfl⟩
    · exact filed.heap expiry key earlier

theorem file (named : Named names queue.batchExpiryGapWhenInitUsecs info) :
    Filed names pending
      { (queue.enqueue info).addExpiration info with
        items := queue.items.insert (.fromInfo info) item } :=
  filed.put fits named.isNamed (entryAt_enqueue queue info) (.inl (mem_addItem.mpr (.inl rfl)))
    (fun _ => mem_addItem.mp) (fun _ => mem_addItem.mpr ∘ .inr)

variable (item) in
theorem update (isNamed : names (.fromInfo info) = info) {before : QueueItem}
    (stored : queue.items.lookup (.fromInfo info) = some before) :
    Filed names pending { queue with items := queue.items.insert (.fromInfo info) item } := by
  have isEntry := filed.queued _ _ stored
  have isListed := filed.expiring _ _ stored
  rw [isNamed] at isEntry isListed
  refine filed.put fits isNamed (fun author key => ?_) isListed (fun _ => .inr) (fun _ => id)
  split
  · rename_i same
    rw [same.1, same.2]
    exact isEntry
  · rfl

end

variable {rest : List BatchSortKey}

theorem remove (filed : Filed names pending queue) {items : Table BatchKey QueueItem}
    {batches : Table AccountAddress BatchQueue} {removed : BatchKey → Prop}
    (kept : ∀ key item, items.lookup key = some item ↔
      queue.items.lookup key = some item ∧ ¬ removed key)
    (keptEntry : ∀ author key info, entryAt batches author key = some info ↔
      entryAt queue.authorToBatches author key = some info ∧ ¬ removed (.fromInfo info))
    (stillPending : ∀ key item, items.lookup key = some item →
      fromInfo (names key) ∈ pending → fromInfo (names key) ∈ rest) :
    Filed names rest { queue with items := items, authorToBatches := batches } where
  fits := by
    intro key item stored
    have fits := filed.fits key item ((kept key item).mp stored).1
    exact { fits with
      unexpired := fun hasProof => (fits.unexpired hasProof).imp_right
        (stillPending key item stored) }
  queued := by
    intro key item stored
    obtain ⟨isStored, notRemoved⟩ := (kept key item).mp stored
    refine (keptEntry _ _ _).mpr ⟨filed.queued key item isStored, ?_⟩
    rw [(filed.fits key item isStored).key_eq]
    exact notRemoved
  expiring := by
    intro key item stored
    exact (filed.expiring key item ((kept key item).mp stored).1).imp_right
      (stillPending key item stored)
  entries := by
    intro author key info isEntry
    obtain ⟨wasEntry, notRemoved⟩ := (keptEntry author key info).mp isEntry
    obtain ⟨isKey, isAuthor, isNamed, item, stored⟩ := filed.entries author key info wasEntry
    exact ⟨isKey, isAuthor, isNamed, item, (kept _ _).mpr ⟨stored, notRemoved⟩⟩
  heap := filed.heap

variable {key : BatchSortKey}

theorem entry_unique (filed : Filed names pending queue) {author : AccountAddress}
    {info : BatchInfo} (isEntry : entryAt queue.authorToBatches author key = some info) :
    info = names key.batchKey ∧ key = .fromInfo (names key.batchKey) ∧ author = key.author := by
  obtain ⟨isKey, isAuthor, isNamed, _⟩ := filed.entries author key info isEntry
  subst isKey
  refine ⟨isNamed.symm, ?_, isAuthor.symm⟩
  exact congrArg fromInfo isNamed.symm

theorem gc (filed : Filed names pending queue) (timestamp : Nat) : Filed names pending
    (queue.gcExpiredBatchSummariesWithoutProofs timestamp) := by
  let removed (key : BatchKey) : Prop := ∃ item, queue.items.lookup key = some item ∧
      isExpiredSummary timestamp item = true
  have isRemoved (author : AccountAddress) (key : BatchSortKey) (info : BatchInfo)
      (isEntry : entryAt queue.authorToBatches author key = some info) :
      (∃ item ∈ (queue.items.entries.map fun entry =>
          entry.2).filter (isExpiredSummary timestamp),
        author = item.info.author ∧ key = .fromInfo item.info) ↔
      removed (.fromInfo info) := by
    obtain ⟨isKey, isAuthor, isNamed, _⟩ := filed.entries author key info isEntry
    constructor
    · rintro ⟨item, member, -, sameKey⟩
      obtain ⟨inItems, expired⟩ := mem_filter.mp member
      obtain ⟨⟨itemKey, found⟩, inEntries, isItem⟩ := mem_map.mp inItems
      have stored := Table.lookup_eq_some_iff.mpr inEntries
      have fits := filed.fits _ _ stored
      have sameItem : found = item := isItem
      subst sameItem
      have isItemKey : BatchKey.fromInfo info = itemKey := by
        rw [← fits.key_eq, ← fits.info_eq]
        have sorted : fromInfo info = .fromInfo found.info := isKey.symm.trans sameKey
        exact congrArg batchKey sorted
      exact ⟨found, by rw [isItemKey]; exact stored, expired⟩
    · rintro ⟨item, stored, expired⟩
      have fits := filed.fits _ _ stored
      have sameInfo : item.info = info := fits.info_eq.trans isNamed
      refine ⟨item, mem_filter.mpr ⟨mem_map.mpr
        ⟨_, Table.lookup_eq_some_iff.mp stored, rfl⟩, expired⟩, ?_⟩
      rw [sameInfo]
      exact ⟨isAuthor.symm, isKey⟩
  have kept (key : BatchKey) (item : QueueItem) : (queue.items.retain fun _ item =>
          !isExpiredSummary timestamp item).lookup key = some item ↔
        queue.items.lookup key = some item ∧ ¬ removed key := by
    rw [Table.lookup_retain, filter_eq_some_iff]
    refine and_congr_right fun stored => ?_
    rw [Bool.not_eq_true', ← Bool.not_eq_true]
    refine not_congr ⟨fun expired => ⟨item, stored, expired⟩, ?_⟩
    rintro ⟨other, isOther, expired⟩
    rw [stored] at isOther
    cases isOther
    exact expired
  refine filed.remove kept ?_ fun key item _ isPending => isPending
  · intro author key info
    rw [entryAt_dequeueAll]
    constructor
    · intro isEntry
      split at isEntry
      · cases isEntry
      · rename_i notRemoved
        exact ⟨isEntry, fun wasRemoved =>
          notRemoved ((isRemoved author key info isEntry).mpr wasRemoved)⟩
    · rintro ⟨isEntry, notRemoved⟩
      rw [if_neg fun wasRemoved =>
        notRemoved ((isRemoved author key info isEntry).mp wasRemoved)]
      exact isEntry

theorem advance (filed : Filed names [] queue) {blockTimestamp : Nat} {popped : List BatchSortKey}
    (isPopped : ∀ key, key ∈ popped ↔ key ∈ (queue.expirations.expire blockTimestamp).1) :
    Filed names popped
      { queue with
        latestBlockTimestamp := blockTimestamp
        expirations := (queue.expirations.expire blockTimestamp).2 } := by
  have onHeap (key : BatchKey) (item : QueueItem) (stored : queue.items.lookup key = some item) :
      (blockTimestamp < (names key).expiration ∧ ((names key).expiration, fromInfo (names key)) ∈
          (queue.expirations.expire blockTimestamp).2.expiries) ∨
      fromInfo (names key) ∈ popped := by
    have member := (filed.expiring key item stored).resolve_right not_mem_nil
    rcases lt_or_ge blockTimestamp (names key).expiration with later | passed
    · exact .inl ⟨later, mem_left.mpr ⟨member, later⟩⟩
    · exact .inr ((isPopped _).mpr (mem_expired.mpr ⟨_, passed, member⟩))
  refine ⟨?_, filed.queued, ?_, filed.entries, ?_⟩
  · intro key item stored
    have fits := filed.fits key item stored
    exact { fits with
      unexpired := fun _ => (onHeap key item stored).imp_left And.left }
  · intro key item stored
    exact (onHeap key item stored).imp_left And.right
  · intro expiry key member
    exact filed.heap expiry key (mem_left.mp member).1

theorem popped_spec (filed : Filed names pending queue) {blockTimestamp : Nat}
    (isPopped : key ∈ (queue.expirations.expire blockTimestamp).1) :
    key = .fromInfo (names key.batchKey) ∧ (names key.batchKey).expiration ≤ blockTimestamp := by
  obtain ⟨expiry, passed, onHeap⟩ := mem_expired.mp isPopped
  obtain ⟨isSorted, isExpiry⟩ := filed.heap expiry key onHeap
  exact ⟨isSorted, isExpiry ▸ passed⟩

theorem eq_batchKey (filed : Filed names pending queue) {found : BatchKey}
    (stored : queue.items.lookup found = some item) (isKey : fromInfo (names found) = key) :
    found = key.batchKey :=
  (filed.fits found item stored).key_eq.symm.trans (congrArg batchKey isKey)

/-- A key that is in no queue belongs to no item. -/
theorem skip (filed : Filed names (key :: rest) queue)
    (absent : entryAt queue.authorToBatches key.author key = none) : Filed names rest queue := by
  have notKey (found : BatchKey) (item : QueueItem) (stored : queue.items.lookup found = some item)
      (isPending : fromInfo (names found) ∈ key :: rest) :
      fromInfo (names found) ∈ rest := by
    rcases mem_cons.mp isPending with isHead | inRest
    · have isEntry := filed.queued found item stored
      have sameAuthor : found.author = key.author :=
        congrArg BatchKey.author (filed.eq_batchKey stored isHead)
      rw [sameAuthor, isHead, absent] at isEntry
      cases isEntry
    · exact inRest
  refine ⟨?_, filed.queued, ?_, filed.entries, filed.heap⟩
  · intro found item stored
    have fits := filed.fits found item stored
    exact { fits with
      unexpired := fun hasProof => (fits.unexpired hasProof).imp_right (notKey found item stored) }
  · intro found item stored
    exact (filed.expiring found item stored).imp_right (notKey found item stored)

theorem expire (filed : Filed names (key :: rest) queue) {found : BatchQueue}
    (isFound : queue.authorToBatches.lookup key.author = some found)
    (isSorted : key = .fromInfo (names key.batchKey)) :
    Filed names rest { queue with
      items := queue.items.erase key.batchKey
      authorToBatches := if (found.erase key).isEmpty then
          queue.authorToBatches.erase key.author
        else (queue.authorToBatches.erase key.author).insert key.author (found.erase key) } := by
  have kept (other : BatchKey) (item : QueueItem) :
      (queue.items.erase key.batchKey).lookup other = some item ↔
        queue.items.lookup other = some item ∧ ¬ other = key.batchKey := by
    rw [Table.lookup_erase_eq]
    split
    · rename_i same
      simp [same]
    · rename_i different
      simp [different]
  refine filed.remove kept ?_ ?_
  · intro author other info
    rw [entryAt_without isFound]
    constructor
    · intro isEntry
      split at isEntry
      · cases isEntry
      · rename_i notKey
        refine ⟨isEntry, ?_⟩
        intro same
        obtain ⟨isKey, isAuthor, isNamed, _⟩ := filed.entries author other info isEntry
        have sameInfo : info = names key.batchKey := by rw [← same, isNamed]
        refine notKey ⟨?_, ?_⟩
        · rw [← isAuthor, isSorted, sameInfo]
          rfl
        · rw [isKey, sameInfo, ← isSorted]
    · rintro ⟨isEntry, different⟩
      rw [if_neg]
      · exact isEntry
      · rintro ⟨-, sameKey⟩
        obtain ⟨isKey, _⟩ := filed.entries author other info isEntry
        refine different ?_
        rw [← sameKey, isKey]
        rfl
  · intro other item stored isPending
    rcases mem_cons.mp isPending with isHead | inRest
    · obtain ⟨isStored, different⟩ := (kept other item).mp stored
      exact absurd (filed.eq_batchKey isStored isHead) different
    · exact inRest

end Filed

end LumioNode.BatchProofQueue
