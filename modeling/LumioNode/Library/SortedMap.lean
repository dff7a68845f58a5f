import Mathlib.Data.List.Count
import Mathlib.Data.List.Sort

/-!
# Ordered maps

Finite maps kept as lists of entries in strictly increasing key order, as a
B-tree map iterates over them.
-/

namespace LumioNode.Library

open List Option

variable {κ α β : Type} [LinearOrder κ]

/-- The entries come in strictly increasing key order. -/
structure SortedMap (κ α : Type) [LinearOrder κ] where
  entries : List (κ × α)
  sorted : entries.Pairwise fun left right => left.1 < right.1

namespace SortedMap

def empty : SortedMap κ α := ⟨[], List.Pairwise.nil⟩

/-- Replace the value at `key`, or put a new entry where it belongs. -/
def insertEntry (key : κ) (value : α) : List (κ × α) → List (κ × α)
  | [] => [(key, value)]
  | head :: tail =>
    if key < head.1 then (key, value) :: head :: tail
    else if key = head.1 then (key, value) :: tail
    else head :: insertEntry key value tail

variable {key bound : κ} {value : α} {entries : List (κ × α)} {entry : κ × α}

section

variable (sorted : entries.Pairwise fun left right => left.1 < right.1)

include sorted

theorem mem_insertEntry : entry ∈ insertEntry key value entries ↔
      entry = (key, value) ∨ (entry ∈ entries ∧ entry.1 ≠ key) := by
  induction entries with
  | nil => simp [insertEntry]
  | cons head tail inductionHypothesis =>
    obtain ⟨headLess, tailSorted⟩ := pairwise_cons.mp sorted
    unfold insertEntry
    split
    · rename_i less
      have others : ∀ other ∈ head :: tail, other.1 ≠ key := forall_mem_cons.mpr
        ⟨ne_of_gt less, fun other inTail => ne_of_gt (lt_trans less (headLess other inTail))⟩
      rw [mem_cons]
      exact or_congr_right ⟨fun member => ⟨member, others _ member⟩, And.left⟩
    · split
      · rename_i same
        have others : ∀ other ∈ tail, other.1 ≠ key :=
          fun other member => same ▸ ne_of_gt (headLess other member)
        rw [mem_cons, mem_cons]
        refine or_congr_right ⟨fun member =>
          ⟨.inr member, others _ member⟩, ?_⟩
        rintro ⟨rfl | inTail, different⟩
        · exact absurd same.symm different
        · exact inTail
      · rename_i different
        rw [mem_cons, inductionHypothesis tailSorted, mem_cons]
        constructor
        · rintro (rfl | inserted | ⟨inTail, otherKey⟩)
          · exact .inr ⟨.inl rfl, Ne.symm different⟩
          · exact .inl inserted
          · exact .inr ⟨.inr inTail, otherKey⟩
        · rintro (inserted | ⟨rfl | inTail, otherKey⟩)
          · exact .inr (.inl inserted)
          · exact .inl rfl
          · exact .inr (.inr ⟨inTail, otherKey⟩)

theorem insertEntry_sorted :
    (insertEntry key value entries).Pairwise fun left right => left.1 < right.1 := by
  induction entries with
  | nil => exact pairwise_singleton _ _
  | cons head tail inductionHypothesis =>
    obtain ⟨headLess, tailSorted⟩ := pairwise_cons.mp sorted
    unfold insertEntry
    split
    · rename_i less
      exact pairwise_cons.mpr ⟨forall_mem_cons.mpr
        ⟨less, fun entry inTail => lt_trans less (headLess entry inTail)⟩, sorted⟩
    · rename_i notLess
      split
      · rename_i same
        exact pairwise_cons.mpr ⟨fun entry member => same ▸ headLess entry member, tailSorted⟩
      · rename_i different
        have greater : head.1 < key := lt_of_le_of_ne (not_lt.mp notLess) (Ne.symm different)
        refine pairwise_cons.mpr ⟨?_, inductionHypothesis tailSorted⟩
        intro entry member
        rcases (mem_insertEntry tailSorted).mp member with rfl | ⟨inTail, _⟩
        · exact greater
        · exact headLess entry inTail

end

def insert (key : κ) (value : α) (map : SortedMap κ α) : SortedMap κ α :=
  ⟨insertEntry key value map.entries, insertEntry_sorted map.sorted⟩

variable (map : SortedMap κ α)

def get? (key : κ) : Option α :=
  (map.entries.find? fun entry => entry.1 = key).map Prod.snd

/-- `entry(key).or_insert(value)`: an existing entry is kept. -/
def orInsert (key : κ) (value : α) (map : SortedMap κ α) : SortedMap κ α := match map.get? key with
  | some _ => map
  | none => map.insert key value

def keys : List κ := map.entries.map Prod.fst

/-- Keep the entries that `keep` accepts, with the value it returns. -/
def filterMap (keep : κ → α → Option β) (map : SortedMap κ α) : SortedMap κ β where
  entries := map.entries.filterMap fun entry =>
    (keep entry.1 entry.2).map fun value => (entry.1, value)
  sorted := by
    refine List.Pairwise.filterMap _ ?_ map.sorted
    intro left right less newLeft leftKept newRight rightKept
    obtain ⟨_, _, rfl⟩ := map_eq_some_iff.mp leftKept
    obtain ⟨_, _, rfl⟩ := map_eq_some_iff.mp rightKept
    exact less

def erase (key : κ) (map : SortedMap κ α) : SortedMap κ α := map.filterMap fun other value =>
    if other = key then none else some value

/-- `range(..bound).next_back()`: the last entry below a bound. -/
def lastBelow (bound : κ) (map : SortedMap κ α) : Option (κ × α) :=
  (map.entries.filter fun entry => entry.1 < bound).getLast?

/-- What `split_off(bound)` leaves. -/
def below (bound : κ) (map : SortedMap κ α) : SortedMap κ α :=
  map.filterMap fun key value => if key < bound then some value else none

/-- What `split_off(bound)` returns. -/
def atLeast (bound : κ) (map : SortedMap κ α) : SortedMap κ α :=
  map.filterMap fun key value => if key < bound then none else some value

def isEmpty : Bool := map.entries.isEmpty

/-- `first_key_value` without the value. -/
def firstKey : Option κ := map.keys.head?

/-- `last_key_value` without the value. -/
def lastKey : Option κ := map.keys.getLast?

theorem keys_sorted : map.keys.Pairwise (· < ·) :=
  pairwise_map.mpr map.sorted

theorem keys_nodup : map.keys.Nodup :=
  map.keys_sorted.imp fun less => ne_of_lt less

variable {map : SortedMap κ α}

theorem get?_eq_some_iff : map.get? key = some value ↔ (key, value) ∈ map.entries := by
  unfold get?
  constructor
  · intro found
    obtain ⟨entry, entryFound, rfl⟩ := map_eq_some_iff.mp found
    have keyEq : entry.1 = key := by simpa using List.find?_some entryFound
    exact keyEq ▸ mem_of_find?_eq_some entryFound
  · intro member
    have isFound : (map.entries.find? fun entry => entry.1 = key).isSome :=
      List.find?_isSome.mpr ⟨_, member, by simp⟩
    obtain ⟨entry, entryFound⟩ := isSome_iff_exists.mp isFound
    have keyEq : entry.1 = key := by simpa using List.find?_some entryFound
    have entryMember := mem_of_find?_eq_some entryFound
    subst keyEq
    rw [entryFound]
    have same := inj_on_of_nodup_map map.keys_nodup entryMember member rfl
    exact congrArg (some ·.2) same

theorem get?_eq_none_iff : map.get? key = none ↔ key ∉ map.keys := by
  rw [← not_iff_not, not_not, ← ne_eq, ne_none_iff_exists']
  simp [get?_eq_some_iff, keys]

theorem isSome_get?_iff : (map.get? key).isSome ↔ key ∈ map.keys := by
  rw [← not_iff_not, ← get?_eq_none_iff, not_isSome_iff_eq_none]

@[grind =]
theorem get?_insert (map : SortedMap κ α) (key other : κ) (value : α) :
    (map.insert key value).get? other = if other = key then some value else map.get? other := by
  apply Option.ext
  intro candidate
  rw [get?_eq_some_iff, insert, mem_insertEntry map.sorted]
  split
  · rename_i same
    subst same
    simp [eq_comm]
  · rename_i different
    simp [different, get?_eq_some_iff]

@[simp, grind =]
theorem get?_empty (key : κ) : (empty : SortedMap κ α).get? key = none := rfl

theorem get?_orInsert (map : SortedMap κ α) (key other : κ) (value : α) :
    (map.orInsert key value).get? other = if other = key then some ((map.get? key).getD value)
      else map.get? other := by
  unfold orInsert
  split
  · rename_i existing found
    split
    · rename_i same
      rw [same, found, getD_some]
    · rfl
  · rename_i absent
    rw [get?_insert, absent, getD_none]

theorem get?_filterMap (map : SortedMap κ α) (keep : κ → α → Option β)
    (key : κ) : (map.filterMap keep).get? key = (map.get? key).bind (keep key) := by
  apply Option.ext
  intro candidate
  rw [get?_eq_some_iff, filterMap, mem_filterMap, bind_eq_some_iff]
  constructor
  · rintro ⟨entry, member, kept⟩
    obtain ⟨value, isKept, isEntry⟩ := map_eq_some_iff.mp kept
    cases isEntry
    exact ⟨entry.2, get?_eq_some_iff.mpr member, isKept⟩
  · rintro ⟨value, found, kept⟩
    exact ⟨(key, value), get?_eq_some_iff.mp found, by simp [kept]⟩

@[grind =]
theorem get?_erase (map : SortedMap κ α) (key other : κ) : (map.erase key).get? other =
    if other = key then none else map.get? other := by
  rw [erase, get?_filterMap]
  by_cases same : other = key
  · cases map.get? other <;> simp [same]
  · cases map.get? other <;> simp [same]

@[grind =]
theorem get?_below (map : SortedMap κ α) (bound key : κ) : (map.below bound).get? key =
    if key < bound then map.get? key else none := by
  rw [below, get?_filterMap]
  by_cases less : key < bound
  · cases map.get? key <;> simp [less]
  · cases map.get? key <;> simp [less]

@[grind =]
theorem get?_atLeast (map : SortedMap κ α) (bound key : κ) : (map.atLeast bound).get? key =
    if key < bound then none else map.get? key := by
  rw [atLeast, get?_filterMap]
  by_cases less : key < bound
  · cases map.get? key <;> simp [less]
  · cases map.get? key <;> simp [less]

theorem isEmpty_iff : map.isEmpty = true ↔ ∀ key, map.get? key = none := by
  rw [isEmpty, List.isEmpty_iff]
  constructor
  · intro isNil key
    rw [get?, isNil]
    rfl
  · intro absent
    apply eq_nil_iff_forall_not_mem.mpr
    intro entry member
    have found : map.get? entry.1 = some entry.2 := get?_eq_some_iff.mpr member
    rw [absent] at found
    cases found

theorem lastBelow_eq_some_iff :
    map.lastBelow bound = some (key, value) ↔ map.get? key = some value ∧ key < bound ∧
        ∀ other, (map.get? other).isSome → other < bound → other ≤ key := by
  have sorted : (map.entries.filter fun entry => entry.1 < bound).Pairwise
      fun left right => left.1 < right.1 := map.sorted.filter _
  have member (entry : κ × α) : entry ∈ (map.entries.filter fun entry => entry.1 < bound) ↔
      map.get? entry.1 = some entry.2 ∧ entry.1 < bound := by
    simp [get?_eq_some_iff]
  have greatest {last : κ × α} (isLast : map.lastBelow bound = some last) :
      (map.get? last.1 = some last.2 ∧ last.1 < bound) ∧
        ∀ other, (map.get? other).isSome → other < bound → other ≤ last.1 := by
    obtain ⟨earlier, isSplit⟩ := List.getLast?_eq_some_iff.mp isLast
    refine ⟨(member last).mp (by rw [isSplit]; simp), ?_⟩
    intro other present less
    obtain ⟨otherValue, found⟩ := isSome_iff_exists.mp present
    have otherIn := (member (other, otherValue)).mpr ⟨found, less⟩
    rw [isSplit] at otherIn sorted
    rcases mem_append.mp otherIn with isEarlier | isSame
    · exact le_of_lt ((pairwise_append.mp sorted).2.2 _ isEarlier _
        (mem_singleton_self _))
    · exact le_of_eq (congrArg Prod.fst (mem_singleton.mp isSame))
  constructor
  · intro isLast
    exact and_assoc.mp (greatest isLast)
  · rintro ⟨found, less, isGreatest⟩
    have inList := (member (key, value)).mpr ⟨found, less⟩
    obtain ⟨last, isLast⟩ : ∃ last, map.lastBelow bound = some last :=
      isSome_iff_exists.mp (List.getLast?_isSome.mpr (ne_nil_of_mem inList))
    obtain ⟨⟨lastFound, lastLess⟩, atMost⟩ := greatest isLast
    have same : last.1 = key := le_antisymm (isGreatest _ (by rw [lastFound]; rfl) lastLess)
      (atMost _ (by rw [found]; rfl) less)
    rw [same, found] at lastFound
    rw [isLast, ← same, Option.some.inj lastFound]

theorem lastBelow_eq_none_iff : map.lastBelow bound = none ↔
    ∀ key, (map.get? key).isSome → ¬ key < bound := by
  rw [lastBelow, List.getLast?_eq_none_iff, filter_eq_nil_iff]
  constructor
  · intro noneBelow key present
    obtain ⟨value, found⟩ := isSome_iff_exists.mp present
    simpa using noneBelow (key, value) (get?_eq_some_iff.mp found)
  · intro noneBelow entry member
    have present : (map.get? entry.1).isSome := by
      rw [get?_eq_some_iff.mpr member]
      rfl
    simpa using noneBelow entry.1 present

theorem lastBelow_congr {first second : SortedMap κ α}
    (same : ∀ key, key < bound → first.get? key = second.get? key) :
    first.lastBelow bound = second.lastBelow bound := by
  cases isLast : second.lastBelow bound with
  | none =>
    rw [lastBelow_eq_none_iff] at isLast ⊢
    intro key present less
    rw [same key less] at present
    exact isLast key present less
  | some =>
    obtain ⟨found, less, greatest⟩ := lastBelow_eq_some_iff.mp isLast
    apply lastBelow_eq_some_iff.mpr
    refine ⟨by rw [same _ less, found], less, ?_⟩
    intro other present isLess
    rw [same other isLess] at present
    exact greatest other present isLess

theorem lastBelow_of_le {lower : κ} (atMost : lower ≤ bound)
    (less : ∀ last, map.lastBelow bound = some last → last.1 < lower) :
    map.lastBelow lower = map.lastBelow bound := by
  cases isLast : map.lastBelow bound with
  | none =>
    rw [lastBelow_eq_none_iff] at isLast ⊢
    exact fun key present isLess => isLast key present (lt_of_lt_of_le isLess atMost)
  | some last =>
    obtain ⟨found, _, greatest⟩ := lastBelow_eq_some_iff.mp isLast
    refine lastBelow_eq_some_iff.mpr ⟨found, less last isLast, ?_⟩
    exact fun other present isLess => greatest other present (lt_of_lt_of_le isLess atMost)

/-- The new entry is the last below the bound if no other one comes after it. -/
theorem lastBelow_insert (map : SortedMap κ α) (bound key : κ) (value : α) :
    (map.insert key value).lastBelow bound =
      if key < bound ∧ ∀ last, map.lastBelow bound = some last → last.1 ≤ key
      then some (key, value) else map.lastBelow bound := by
  cases last : map.lastBelow bound with
  | none =>
    have noneBelow := lastBelow_eq_none_iff.mp last
    split
    · refine lastBelow_eq_some_iff.mpr ⟨by grind, by grind, fun other => ?_⟩
      grind
    · rename_i notLast
      rw [← last]
      refine lastBelow_congr fun other less => ?_
      grind
  | some entry =>
    obtain ⟨found, isLess, greatest⟩ := lastBelow_eq_some_iff.mp last
    split
    · rename_i isLast
      refine lastBelow_eq_some_iff.mpr ⟨by grind, isLast.1, fun other => ?_⟩
      grind
    · rename_i notLast
      refine lastBelow_eq_some_iff.mpr ⟨by grind, isLess, fun other => ?_⟩
      grind

/-- An entry that is replaced keeps its place. -/
theorem lastBelow_replace (present : (map.get? key).isSome) (bound : κ) (value : α) :
    (map.insert key value).lastBelow bound = (map.lastBelow bound).map
      fun last => if last.1 = key then (key, value) else last := by
  rw [lastBelow_insert]
  cases isLast : map.lastBelow bound with
  | none =>
    have notLess := lastBelow_eq_none_iff.mp isLast key present
    simp [notLess]
  | some last =>
    obtain ⟨_, isLess, greatest⟩ := lastBelow_eq_some_iff.mp isLast
    by_cases same : last.1 = key
    · have less : key < bound := same ▸ isLess
      simp [same, less]
    · have notLast : ¬ (key < bound ∧ ∀ entry, some last = some entry → entry.1 ≤ key) := by
        rintro ⟨less, atMost⟩
        exact same (le_antisymm (atMost last rfl) (greatest key present less))
      rw [if_neg notLast, map_some, if_neg same]

/-- If the last entry is removed, the one before it is the last. -/
theorem lastBelow_erase (map : SortedMap κ α) (bound key : κ) : (map.erase key).lastBelow bound =
    if (map.lastBelow bound).map Prod.fst = some key then
      map.lastBelow key
    else map.lastBelow bound := by
  split
  · rename_i wasLast
    obtain ⟨⟨key, value⟩, isLast, rfl⟩ := map_eq_some_iff.mp wasLast
    obtain ⟨_, isLess, greatest⟩ := lastBelow_eq_some_iff.mp isLast
    have kept : (map.erase key).lastBelow key = map.lastBelow key :=
      lastBelow_congr fun other less => (get?_erase map key other).trans (if_neg (ne_of_lt less))
    rw [← kept, lastBelow_of_le (le_of_lt isLess)]
    intro last isLeft
    obtain ⟨found, less, _⟩ := lastBelow_eq_some_iff.mp isLeft
    grind
  · rename_i notLast
    cases last : map.lastBelow bound with
    | none =>
      rw [lastBelow_eq_none_iff] at last ⊢
      intro other
      grind
    | some =>
      obtain ⟨found, less, greatest⟩ := lastBelow_eq_some_iff.mp last
      refine lastBelow_eq_some_iff.mpr ⟨by grind, less, fun other => ?_⟩
      grind

theorem firstKey_eq_some (isFirst : map.firstKey = some key) :
    (map.get? key).isSome ∧ ∀ other, (map.get? other).isSome → key ≤ other := by
  have sorted := map.keys_sorted
  obtain ⟨rest, isSplit⟩ := List.head?_eq_some_iff.mp isFirst
  constructor
  · rw [isSome_get?_iff, isSplit]
    exact mem_cons_self
  · intro other isPresent
    rw [isSome_get?_iff, isSplit] at isPresent
    rw [isSplit] at sorted
    rcases mem_cons.mp isPresent with isKey | inRest
    · exact le_of_eq isKey.symm
    · exact le_of_lt ((pairwise_cons.mp sorted).1 other inRest)

theorem mem_keys_insert {other : κ} :
    other ∈ (map.insert key value).keys ↔ other = key ∨ other ∈ map.keys := by
  rw [← not_iff_not, ← get?_eq_none_iff, get?_insert, not_or, ← get?_eq_none_iff]
  split
  · rename_i same
    simp [same]
  · rename_i different
    simp [different]

theorem ext_get? {left right : SortedMap κ α}
    (same : ∀ key, left.get? key = right.get? key) : left = right := by
  have perm : left.entries.Perm right.entries := by
    rw [perm_ext_iff_of_nodup left.keys_nodup.of_map right.keys_nodup.of_map]
    intro entry
    rw [← get?_eq_some_iff, ← get?_eq_some_iff, same]
  have entriesEq := perm.eq_of_pairwise (fun _ _ _ _ less greater => absurd greater less.asymm)
    left.sorted right.sorted
  cases left
  cases right
  cases entriesEq
  rfl

theorem mem_foldl_insert {added : List (κ × α)} (nodup : (added.map Prod.fst).Nodup) :
    entry ∈ (added.foldl (fun map entry => map.insert entry.1 entry.2) map).entries ↔
      entry ∈ added ∨ (entry ∈ map.entries ∧ entry.1 ∉ added.map Prod.fst) := by
  induction added generalizing map with
  | nil => simp
  | cons head rest inductionHypothesis =>
    obtain ⟨notAgain, restNodup⟩ := nodup_cons.mp nodup
    rw [foldl_cons, inductionHypothesis restNodup, insert, mem_insertEntry map.sorted, mem_cons,
      map_cons, mem_cons, not_or]
    by_cases isHead : entry = head
    · subst isHead
      simp [notAgain]
    · simp only [isHead, false_or, Prod.mk.eta]
      tauto

end SortedMap

theorem countP_lt_of_mem {α : Type} {stronger weaker : α → Bool} {members : List α} {member : α}
    (isMember : member ∈ members) (implies : ∀ other, stronger other = true → weaker other = true)
    (accepted : weaker member = true) (rejected : stronger member = false) :
    members.countP stronger < members.countP weaker := by
  have within : members.countP stronger = (members.filter weaker).countP stronger := by
    rw [countP_filter]
    apply countP_congr
    intro other _
    simpa using implies other
  rw [within, @countP_eq_length_filter _ weaker]
  exact countP_lt_length_iff.mpr ⟨member, mem_filter.mpr ⟨isMember, accepted⟩, rejected⟩

theorem eq_of_increasing {left right : List κ} (leftIncreasing : left.Pairwise (· < ·))
    (rightIncreasing : right.Pairwise (· < ·))
    (sameMembers : ∀ key, key ∈ left ↔ key ∈ right) : left = right := by
  have leftNodup : left.Nodup := leftIncreasing.imp fun less => ne_of_lt less
  have rightNodup : right.Nodup := rightIncreasing.imp fun less => ne_of_lt less
  have perm := (perm_ext_iff_of_nodup leftNodup rightNodup).mpr sameMembers
  exact perm.eq_of_pairwise' (leftIncreasing.imp le_of_lt) (rightIncreasing.imp le_of_lt)

end LumioNode.Library
