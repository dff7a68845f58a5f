import LumioNode.Library.Fallible
import LumioNode.Library.SortedMap
import Mathlib.Tactic.Ring

/-! # What the framework modules share

Aborts, unsigned integers that abort out of range, and `BigOrderedMap` over ordered
maps. -/

namespace LumioNode.Framework

open Library

inductive Abort where
  | arithmetic
  | invalidArgument (code : Nat)
  | invalidState (code : Nat)
  | keyAlreadyExists
  | keyNotFound
deriving DecidableEq, Repr

def checked (width value : Nat) : Except Abort Nat :=
  if value < 2 ^ width then .ok value else .error .arithmetic

@[simp]
theorem checked_eq_ok {width value result : Nat} :
    checked width value = .ok result ↔ value < 2 ^ width ∧ value = result := by
  unfold checked
  split <;> simp_all

theorem checked_of {width value : Nat} (fits : value < 2 ^ width) :
    checked width value = .ok value :=
  if_pos fits

def minus (left right : Nat) : Except Abort Nat :=
  if right ≤ left then .ok (left - right) else .error .arithmetic

@[simp]
theorem minus_eq_ok {left right result : Nat} :
    minus left right = .ok result ↔ right ≤ left ∧ left - right = result := by
  unfold minus
  split <;> simp_all

namespace OrderedMap

variable {κ α : Type} [LinearOrder κ]

def add (map : SortedMap κ α) (key : κ) (value : α) : Except Abort (SortedMap κ α) :=
  if map.get? key = none then .ok (map.insert key value)
  else .error .keyAlreadyExists

def remove (map : SortedMap κ α) (key : κ) : Except Abort (SortedMap κ α) :=
  if map.get? key = none then .error .keyNotFound else .ok (map.erase key)

theorem add_of {map : SortedMap κ α} {key : κ} (absent : map.get? key = none)
    (value : α) : add map key value = .ok (map.insert key value) :=
  if_pos absent

theorem remove_of {map : SortedMap κ α} {key : κ} {value : α}
    (present : map.get? key = some value) : remove map key = .ok (map.erase key) :=
  if_neg (by simp [present])

end OrderedMap

end LumioNode.Framework
