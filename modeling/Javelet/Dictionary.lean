/-!
# Dictionaries

Values under string keys, kept in ascending order of the keys by code points. Inserting
under a key that is present replaces its value.
-/
namespace Javelet

/-- Values under string keys, in ascending order of the keys. -/
structure Dictionary (α : Type) where
  entries : List (String × α)

namespace Dictionary

variable {α : Type}

/-- The dictionary without entries. -/
def empty : Dictionary α := ⟨[]⟩

/-- The value under a key in a list of entries. -/
def lookup (key : String) : List (String × α) → Option α
  | [] => none
  | (k, v) :: rest => if key = k then some v else lookup key rest

/-- Put an entry at its place in a list of entries. -/
def place (key : String) (value : α) : List (String × α) → List (String × α)
  | [] => [(key, value)]
  | (k, v) :: rest =>
    if key = k then (key, value) :: rest
    else if key < k then (key, value) :: (k, v) :: rest
    else (k, v) :: place key value rest

def find? (d : Dictionary α) (key : String) : Option α := lookup key d.entries

def contains (d : Dictionary α) (key : String) : Bool := (d.find? key).isSome

def insert (d : Dictionary α) (key : String) (value : α) : Dictionary α :=
  ⟨place key value d.entries⟩

def keys (d : Dictionary α) : List String := d.entries.map Prod.fst

def values (d : Dictionary α) : List α := d.entries.map Prod.snd

def size (d : Dictionary α) : Nat := d.entries.length

theorem lookup_place_self (key : String) (value : α) (entries : List (String × α)) :
    lookup key (place key value entries) = some value := by
  induction entries with
  | nil => simp [place, lookup]
  | cons entry rest ih =>
    simp only [place]
    split
    · simp [lookup]
    · split
      · simp [lookup]
      · simp_all [lookup]

theorem lookup_place_of_ne {key other : String} (h : other ≠ key) (value : α)
    (entries : List (String × α)) :
    lookup other (place key value entries) = lookup other entries := by
  induction entries with
  | nil => simp [place, lookup, h]
  | cons entry rest ih =>
    simp only [place]
    split
    · simp_all [lookup]
    · split
      · simp [lookup, h]
      · simp [lookup, ih]

@[simp] theorem find?_insert_self (d : Dictionary α) (key : String) (value : α) :
    (d.insert key value).find? key = some value :=
  lookup_place_self key value d.entries

theorem find?_insert_of_ne (d : Dictionary α) {key other : String} (h : other ≠ key) (value : α) :
    (d.insert key value).find? other = d.find? other :=
  lookup_place_of_ne h value d.entries

end Dictionary

end Javelet
