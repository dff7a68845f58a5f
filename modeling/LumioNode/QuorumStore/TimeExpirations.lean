import LumioNode.Library.Table
import Mathlib.Data.Finset.Basic

/-! # Expiration times

A heap with the earliest expiry first: of digests in the batch store, of keys in the
proof queue. -/

namespace LumioNode

open List

structure TimeExpirations (I : Type) where
  expiries : List (Nat × I)
  sorted : expiries.Pairwise fun first second => first.1 ≤ second.1

namespace TimeExpirations

variable {I : Type}

def new : TimeExpirations I := ⟨[], .nil⟩

/-- The place of a new entry. -/
def insertEntry (entry : Nat × I) : List (Nat × I) → List (Nat × I)
  | [] => [entry]
  | first :: rest =>
    if entry.1 ≤ first.1 then entry :: first :: rest
    else first :: insertEntry entry rest

variable {entry : Nat × I} {entries : List (Nat × I)}

theorem mem_insertEntry {other : Nat × I} :
    other ∈ insertEntry entry entries ↔ other = entry ∨ other ∈ entries := by
  induction entries with
  | nil => simp [insertEntry]
  | cons first rest inductionHypothesis =>
    unfold insertEntry
    split
    · simp
    · rw [mem_cons, inductionHypothesis, mem_cons]
      tauto

theorem sorted_insertEntry (sorted : entries.Pairwise fun first second => first.1 ≤ second.1) :
    (insertEntry entry entries).Pairwise fun first second => first.1 ≤ second.1 := by
  induction entries with
  | nil => simp [insertEntry]
  | cons first rest inductionHypothesis =>
    obtain ⟨isFirst, restSorted⟩ := pairwise_cons.mp sorted
    unfold insertEntry
    split
    · rename_i isBefore
      exact pairwise_cons.mpr ⟨forall_mem_cons.mpr
        ⟨isBefore, fun other inRest => isBefore.trans (isFirst other inRest)⟩, sorted⟩
    · rename_i isAfter
      refine pairwise_cons.mpr ⟨?_, inductionHypothesis restSorted⟩
      intro other isOther
      rcases mem_insertEntry.mp isOther with rfl | inRest
      · omega
      · exact isFirst other inRest

def addItem (expirations : TimeExpirations I) (item : I) (expiryTime : Nat) : TimeExpirations I :=
  ⟨insertEntry (expiryTime, item) expirations.expiries, sorted_insertEntry expirations.sorted⟩

/-- The loop of `expire`: the first entry is popped while it is due. -/
def popDue (certifiedTime : Nat) : List (Nat × I) → List I × List (Nat × I)
  | [] => ([], [])
  | first :: rest =>
    if first.1 ≤ certifiedTime then
      (first.2 :: (popDue certifiedTime rest).1, (popDue certifiedTime rest).2)
    else ([], first :: rest)

theorem popDue_suffix (certifiedTime : Nat) (entries : List (Nat × I)) :
    (popDue certifiedTime entries).2 <:+ entries := by
  induction entries with
  | nil => exact suffix_rfl
  | cons first rest inductionHypothesis =>
    unfold popDue
    split
    · exact inductionHypothesis.trans (suffix_cons first rest)
    · exact suffix_rfl

/-- The set of the items that are due, and what stays in the heap. -/
def expire [DecidableEq I] (expirations : TimeExpirations I)
    (certifiedTime : Nat) : List I × TimeExpirations I :=
  ((popDue certifiedTime expirations.expiries).1.dedup,
    ⟨(popDue certifiedTime expirations.expiries).2, expirations.sorted.sublist
        (popDue_suffix certifiedTime expirations.expiries).sublist⟩)

variable {certifiedTime : Nat} {item : I}

theorem mem_popDue (sorted : entries.Pairwise fun first second => first.1 ≤ second.1) :
    (∀ item, item ∈ (popDue certifiedTime entries).1 ↔
        ∃ expiry ≤ certifiedTime, (expiry, item) ∈ entries) ∧
      ∀ entry, entry ∈ (popDue certifiedTime entries).2 ↔
        entry ∈ entries ∧ certifiedTime < entry.1 := by
  induction entries with
  | nil => simp [popDue]
  | cons first rest inductionHypothesis =>
    obtain ⟨isFirst, restSorted⟩ := pairwise_cons.mp sorted
    obtain ⟨popped, left⟩ := inductionHypothesis restSorted
    unfold popDue
    split
    · rename_i isDue
      refine ⟨?_, ?_⟩
      · intro item
        rw [mem_cons, popped item]
        constructor
        · rintro (rfl | ⟨expiry, expired, isEntry⟩)
          · exact ⟨first.1, isDue, mem_cons_self⟩
          · exact ⟨expiry, expired, mem_cons_of_mem _ isEntry⟩
        · rintro ⟨expiry, expired, isEntry⟩
          rcases mem_cons.mp isEntry with isHead | inRest
          · exact .inl (congrArg Prod.snd isHead)
          · exact .inr ⟨expiry, expired, inRest⟩
      · intro entry
        rw [left entry, mem_cons]
        constructor
        · rintro ⟨inRest, isLater⟩
          exact ⟨.inr inRest, isLater⟩
        · rintro ⟨rfl | inRest, isLater⟩
          · omega
          · exact ⟨inRest, isLater⟩
    · rename_i notDue
      have allLater : ∀ entry ∈ first :: rest, certifiedTime < entry.1 := by
        intro entry isEntry
        rcases mem_cons.mp isEntry with rfl | inRest
        · omega
        · have isBehind := isFirst entry inRest
          omega
      refine ⟨?_, ?_⟩
      · intro item
        constructor
        · nofun
        · rintro ⟨expiry, expired, isEntry⟩
          have isLater := allLater _ isEntry
          omega
      · intro entry
        exact ⟨fun isEntry => ⟨isEntry, allLater entry isEntry⟩, And.left⟩

variable {expirations : TimeExpirations I}

theorem mem_addItem {expiryTime : Nat} : entry ∈ (expirations.addItem item expiryTime).expiries ↔
      entry = (expiryTime, item) ∨ entry ∈ expirations.expiries :=
  mem_insertEntry

section Expire

variable [DecidableEq I]

theorem mem_expired : item ∈ (expirations.expire certifiedTime).1 ↔
    ∃ expiry ≤ certifiedTime, (expiry, item) ∈ expirations.expiries := by
  rw [expire, mem_dedup]
  exact (mem_popDue expirations.sorted).1 item

theorem mem_left {entry : Nat × I} : entry ∈ (expirations.expire certifiedTime).2.expiries ↔
      entry ∈ expirations.expiries ∧ certifiedTime < entry.1 :=
  (mem_popDue expirations.sorted).2 entry

end Expire

end TimeExpirations

end LumioNode
