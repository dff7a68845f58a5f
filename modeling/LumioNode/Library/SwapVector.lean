import LumioNode.Library.Table

/-! # Vectors with a table of positions

An entry is found by its key through a table of positions, and removed by putting the
last one in its place. -/

namespace LumioNode.Library

open List Option

variable {κ α : Type}

def swapRemove (items : List α) (index : Nat) : List α := match items.getLast? with
  | some last => (items.set index last).dropLast
  | none => items

theorem getElem?_swapRemove {items : List α} {index : Nat}
    (inRange : index < items.length) (position : Nat) :
    (swapRemove items index)[position]? = if position + 1 < items.length then
        if position = index then items.getLast? else items[position]?
      else none := by
  have notEmpty : items ≠ [] := ne_nil_of_length_pos (by omega)
  rw [swapRemove, List.getLast?_eq_some_getLast notEmpty]
  rw [List.getElem?_dropLast, length_set, List.getElem?_set]
  grind

theorem swapRemove_perm {items : List α} {index : Nat} (inRange : index < items.length) :
    (swapRemove items index).Perm (items.eraseIdx index) := by
  have notEmpty : items ≠ [] := ne_nil_of_length_pos (by omega)
  have replaced := set_perm_cons_eraseIdx inRange (items.getLast notEmpty)
  have setNotEmpty : items.set index (items.getLast notEmpty) ≠ [] := by simpa using notEmpty
  rw [← dropLast_append_getLast setNotEmpty] at replaced
  rw [swapRemove, List.getLast?_eq_some_getLast notEmpty]
  have sameLast : (items.set index (items.getLast notEmpty)).getLast
      setNotEmpty = items.getLast notEmpty := by
    grind
  rw [sameLast] at replaced
  exact (perm_append_singleton _ _).symm.trans replaced |>.cons_inv

variable [DecidableEq κ]

/-- A key is at a position if and only if the table says so. -/
def Positions (positions : Table κ Nat) (items : List (κ × α)) : Prop :=
  ∀ key index, positions.lookup key = some index ↔ (items[index]?).map Prod.fst = some key

namespace Positions

variable {positions : Table κ Nat} {items : List (κ × α)} {key : κ} {index : Nat}

section

variable (agrees : Positions positions items)

include agrees

theorem exists_entry
    (isAt : positions.lookup key = some index) : ∃ value, items[index]? = some (key, value) := by
  have found := (agrees key index).mp isAt
  obtain ⟨⟨_, value⟩, isEntry, rfl⟩ := map_eq_some_iff.mp found
  exact ⟨value, isEntry⟩

theorem push (isNew : positions.lookup key = none)
    (value : α) : Positions (positions.insert key items.length) (items ++ [(key, value)]) := by
  intro other position
  have before := agrees other position
  rw [Table.lookup_insert_eq, List.getElem?_append]
  grind

theorem set (isAt : positions.lookup key = some index)
    (value : α) : Positions positions (items.set index (key, value)) := by
  intro other position
  have before := agrees other position
  have atKey := (agrees key index).mp isAt
  rw [List.getElem?_set]
  grind

def afterRemove (positions : Table κ Nat) (items : List (κ × α)) (key : κ)
    (index : Nat) : Table κ Nat :=
  match (swapRemove items index)[index]? with
  | some (swapped, _) => (positions.erase key).insert swapped index
  | none => positions.erase key

theorem remove (isAt : positions.lookup key = some index) :
    Positions (afterRemove positions items key index) (swapRemove items index) := by
  obtain ⟨value, isEntry⟩ := agrees.exists_entry isAt
  have inRange : index < items.length := (List.getElem?_eq_some_iff.mp isEntry).1
  have atSwap := getElem?_swapRemove inRange
  intro other position
  have before := agrees other position
  have atLast := agrees other (items.length - 1)
  unfold afterRemove
  rw [atSwap position, atSwap index]
  split <;> simp only [Table.lookup_insert_eq, Table.lookup_erase_eq] <;> grind

end

def find (positions : Table κ Nat) (items : List (κ × α)) (key : κ) : Option α :=
  ((positions.lookup key).bind (items[·]?)).map Prod.snd

section

variable (agrees : Positions positions items)

include agrees

theorem find_eq_some_iff {value : α} :
    find positions items key = some value ↔ (key, value) ∈ items := by
  rw [find, mem_iff_getElem?]
  constructor
  · intro isFound
    obtain ⟨⟨other, _⟩, isEntry, rfl⟩ := map_eq_some_iff.mp isFound
    obtain ⟨position, isAt, isEntry⟩ := bind_eq_some_iff.mp isEntry
    have isKey := (agrees key position).mp isAt
    grind
  · rintro ⟨position, isEntry⟩
    have isAt := (agrees key position).mpr (by rw [isEntry]; rfl)
    simp [isAt, isEntry]

theorem mem_eraseIdx_iff (isAt : positions.lookup key = some index) {other : κ} {value : α} :
    (other, value) ∈ items.eraseIdx index ↔ other ≠ key ∧ (other, value) ∈ items := by
  rw [mem_eraseIdx_iff_getElem?, mem_iff_getElem?]
  have ofKey := agrees key
  grind

theorem find_push (isNew : positions.lookup key = none) (value : α) (other : κ) :
    find (positions.insert key items.length) (items ++ [(key, value)]) other =
      if other = key then some value else find positions items other := by
  have noKey (found : α) : (key, found) ∉ items := by
    rw [← agrees.find_eq_some_iff, find, isNew]
    simp
  apply Option.ext
  intro found
  rw [(agrees.push isNew value).find_eq_some_iff, mem_append]
  split
  · grind
  · rw [agrees.find_eq_some_iff]
    grind

theorem find_set (isAt : positions.lookup key = some index) (value : α) (other : κ) :
    find positions (items.set index (key, value)) other =
      if other = key then some value else find positions items other := by
  obtain ⟨_, isEntry⟩ := agrees.exists_entry isAt
  have inRange := (List.getElem?_eq_some_iff.mp isEntry).1
  apply Option.ext
  intro found
  rw [(agrees.set isAt value).find_eq_some_iff, (set_perm_cons_eraseIdx inRange _).mem_iff,
    mem_cons, agrees.mem_eraseIdx_iff isAt]
  split
  · grind
  · rw [agrees.find_eq_some_iff]
    grind

theorem find_remove (isAt : positions.lookup key = some index) (other : κ) :
    find (afterRemove positions items key index) (swapRemove items index) other =
      if other = key then none else find positions items other := by
  obtain ⟨_, isEntry⟩ := agrees.exists_entry isAt
  have inRange := (List.getElem?_eq_some_iff.mp isEntry).1
  apply Option.ext
  intro found
  rw [(agrees.remove isAt).find_eq_some_iff,
    (swapRemove_perm inRange).mem_iff, agrees.mem_eraseIdx_iff isAt]
  split
  · grind
  · rw [agrees.find_eq_some_iff]
    grind

end

end Positions

end LumioNode.Library
