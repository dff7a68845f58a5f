import LumioNode.Library.Fallible
import Mathlib.Tactic.Ring

/-! # Unsigned 64.64 fixed-point numbers

A multiple of `2 ^ -64`.  Operations round down, and panic when the result does not fit. -/

namespace LumioNode.Library

abbrev U64F64 := Nat

namespace U64F64

abbrev scale : Nat := 2 ^ 64

def checked (bits : Nat) : Except Fault U64F64 := do
  ensure (bits < 2 ^ 128) .panic
  return bits

def fromNum (number : Nat) : Except Fault U64F64 := checked (number * scale)

def add (left right : U64F64) : Except Fault U64F64 := checked (left + right)

def sub (left right : U64F64) : Except Fault U64F64 := checkedSub left right

def mul (left right : U64F64) : Except Fault U64F64 := checked (left * right / scale)

def div (left right : U64F64) : Except Fault U64F64 := do
  ensure (right ≠ 0) .panic
  checked (left * scale / right)

def floor (bits : U64F64) : U64F64 := bits / scale * scale

def ceil (bits : U64F64) : Except Fault U64F64 := checked ((bits + (scale - 1)) / scale * scale)

def toNum (bits : U64F64) : Nat := bits / scale

theorem checked_eq_ok {bits result : Nat} (isOk : checked bits = .ok result) : result = bits := by
  obtain ⟨_, _, isResult⟩ := of_bind isOk
  cases isResult
  rfl

theorem of_checked_bind {α : Type} {bits : Nat} {next : U64F64 → Except Fault α} {result : α}
    (isOk : checked bits >>= next = .ok result) : next bits = .ok result := by
  obtain ⟨_, isBits, isOk⟩ := of_bind isOk
  rwa [checked_eq_ok isBits] at isOk

theorem sub_eq_ok {left right result : U64F64} (isOk : sub left right = .ok result) :
    right ≤ left ∧ result = left - right := by
  unfold sub checkedSub at isOk
  split at isOk
  · cases isOk
    exact ⟨by assumption, rfl⟩
  · cases isOk

theorem div_eq_ok {left right result : U64F64} (isOk : div left right = .ok result) :
    0 < right ∧ result = left * scale / right := by
  obtain ⟨notZero, isResult⟩ := of_ensure_bind isOk
  exact ⟨Nat.pos_of_ne_zero notZero, checked_eq_ok isResult⟩

end U64F64

end LumioNode.Library
