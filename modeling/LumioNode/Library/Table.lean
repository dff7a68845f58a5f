import Mathlib.Algebra.BigOperators.Group.List.Basic
import Mathlib.Data.List.AList
import Mathlib.Tactic.Ring

/-! # Hash tables

Association lists without repeated keys, with the rule for `retain` and sums over all
entries. -/

namespace LumioNode.Library

open AList List

variable {κ α : Type}

abbrev Table (κ α : Type) := AList fun _ : κ => α

namespace Table

/-- `HashMap::retain` with a condition that changes nothing else. -/
def retain (keep : κ → α → Bool) (table : Table κ α) : Table κ α where
  entries := table.entries.filter fun entry => keep entry.1 entry.2
  nodupKeys := table.nodupKeys.sublist filter_sublist

def total (weight : κ → α → Nat) (table : Table κ α) : Nat :=
  (table.entries.map fun entry => weight entry.1 entry.2).sum

/-- The same keys with other values. -/
def mapValues {β : Type} (transform : α → β) (table : Table κ α) : Table κ β where
  entries := table.entries.map fun entry => ⟨entry.1, transform entry.2⟩
  nodupKeys := by
    have keys : (table.entries.map fun entry =>
        (⟨entry.1, transform entry.2⟩ : (_ : κ) × β)).keys =
          table.entries.keys := by
      simp [List.keys, Function.comp_def]
    rw [List.NodupKeys, keys]
    exact table.nodupKeys

variable [DecidableEq κ]

theorem lookup_insert_eq (table : Table κ α) (key other : κ) (value : α) :
    (table.insert key value).lookup other =
      if other = key then some value else table.lookup other := by
  by_cases same : other = key
  · subst same
    rw [if_pos rfl, lookup_insert]
  · rw [if_neg same, lookup_insert_ne same]

theorem lookup_erase_eq (table : Table κ α) (key other : κ) : (table.erase key).lookup other =
    if other = key then none else table.lookup other := by
  by_cases same : other = key
  · subst same
    rw [if_pos rfl, lookup_erase]
  · rw [if_neg same, lookup_erase_ne same]

variable {table : Table κ α} {key : κ} {value : α}

theorem lookup_eq_some_iff : table.lookup key = some value ↔ ⟨key, value⟩ ∈ table.entries :=
  mem_lookup_iff

theorem lookup_any_iff {condition : α → Bool} :
    (table.lookup key).any condition ↔ ∃ value, ⟨key, value⟩ ∈ table.entries ∧ condition value := by
  simp only [← lookup_eq_some_iff]
  cases table.lookup key with
  | none | some => simp

theorem lookup_retain (keep : κ → α → Bool) (table : Table κ α) (key : κ) :
    (table.retain keep).lookup key = (table.lookup key).filter (keep key) := by
  apply Option.ext
  intro value
  rw [lookup_eq_some_iff, Option.filter_eq_some_iff, lookup_eq_some_iff, retain, mem_filter]

theorem mapValues_erase {β : Type} (transform : α → β) (table : Table κ α) (key : κ) :
    mapValues transform (table.erase key) = (mapValues transform table).erase key := by
  apply ext
  change (table.entries.kerase key).map _ = (table.entries.map _).kerase key
  rw [List.kerase, List.kerase, eraseP_map]
  rfl

theorem mapValues_insert {β : Type} (transform : α → β) (table : Table κ α) (key : κ) (value : α) :
    mapValues transform (table.insert key value) =
      (mapValues transform table).insert key (transform value) := by
  apply ext
  have erased := congrArg entries (mapValues_erase transform table key)
  simp only [mapValues, entries_insert, map_cons]
  exact congrArg _ erased

variable (weight : κ → α → Nat)

theorem total_insert (table : Table κ α) (key : κ) (value : α) :
    total weight (table.insert key value) = weight key value + total weight (table.erase key) := by
  rw [total, entries_insert, map_cons, sum_cons]
  rfl

theorem erase_of_lookup_none (absent : table.lookup key = none) : table.erase key = table := by
  apply ext
  exact kerase_of_notMem_keys (dlookup_eq_none.mp absent)

theorem total_of_lookup (found : table.lookup key = some value) :
    total weight table = weight key value + total weight (table.erase key) := by
  have isKey : key ∈ table.entries.keys := by
    rw [← dlookup_isSome]
    exact Option.isSome_iff_exists.mpr ⟨value, found⟩
  obtain ⟨other, front, back, notFront, isSplit, isErased⟩ := exists_of_kerase isKey
  have same : other = value := by
    have inEntries : ⟨key, other⟩ ∈ table.entries := by
      rw [isSplit]
      simp
    have isOther := lookup_eq_some_iff.mpr inEntries
    rw [found] at isOther
    exact (Option.some.inj isOther).symm
  have erased : (table.erase key).entries = front ++ back := isErased
  rw [total, total, erased, isSplit, same]
  simp only [map_append, map_cons, sum_append, sum_cons]
  omega

theorem total_replace (found : table.lookup key = some value) (next : α) :
    total weight (table.insert key next) + weight key value =
      total weight table + weight key next := by
  rw [total_insert, total_of_lookup weight found]
  omega

theorem total_add (absent : table.lookup key = none) (value : α) :
    total weight (table.insert key value) = total weight table + weight key value := by
  rw [total_insert, erase_of_lookup_none absent]
  omega

theorem total_congr {weight other : κ → α → Nat}
    (same : ∀ key value, table.lookup key = some value → weight key value = other key value) :
    total weight table = total other table := by
  unfold total
  congr 1
  exact map_congr_left fun entry member =>
    same _ _ (lookup_eq_some_iff.mpr member)

theorem total_eq_of_lookup_eq {left right : Table κ α}
    (same : ∀ key, left.lookup key = right.lookup key) :
    total weight left = total weight right := by
  have entries := lookup_ext left.nodupKeys right.nodupKeys (fun key value => by
      change value ∈ left.lookup key ↔ value ∈ right.lookup key
      rw [same])
  exact (entries.map _).sum_eq

/-- Entries without weight may be dropped. -/
theorem total_retain {weight : κ → α → Nat} {keep : κ → α → Bool}
    (weightless : ∀ key value, table.lookup key = some value → keep key value = false → weight key
      value = 0) : total weight (table.retain keep) = total weight table := by
  have onEntries : ∀ entry ∈ table.entries,
      keep entry.1 entry.2 = false → weight entry.1 entry.2 = 0 :=
    fun entry member => weightless _ _ (lookup_eq_some_iff.mpr member)
  change ((table.entries.filter fun entry => keep entry.1 entry.2).map
    fun entry => weight entry.1 entry.2).sum = _
  rw [total]
  generalize table.entries = entries at onEntries ⊢
  induction entries with
  | nil => rfl
  | cons entry rest inductionHypothesis =>
    have restSum := inductionHypothesis (forall_mem_cons.mp onEntries).2
    rw [filter_cons]
    cases kept : keep entry.1 entry.2 with
    | false =>
      have isZero := onEntries entry mem_cons_self kept
      simpa [isZero] using restSum
    | true => simpa using restSum

end Table

end LumioNode.Library
