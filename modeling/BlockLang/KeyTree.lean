/-!
# Maps from numbers

The digits of a key, the lowest first, lead to where it is kept. The keys of a table
differ in their lowest digits, so the way to each of them is short.
-/

namespace BlockLang

inductive KeyTree (α : Type) where
  | empty
  | node (key : Nat) (value : α) (even odd : KeyTree α)
deriving Inhabited

namespace KeyTree

/-- Looks for `key` where the digits of `path` lead. -/
def findAt (key : Nat) : Nat → KeyTree α → Option α
  | _, empty => none
  | path, node other value even odd =>
    if key = other then some value
    else if path % 2 = 0 then findAt key (path / 2) even
    else findAt key (path / 2) odd

/-- Puts `key` where the digits of `path` lead. -/
def insertAt (key : Nat) (new : α) : Nat → KeyTree α → KeyTree α
  | _, empty => node key new empty empty
  | path, node other value even odd =>
    if key = other then node other new even odd
    else if path % 2 = 0 then node other value (insertAt key new (path / 2) even) odd
    else node other value even (insertAt key new (path / 2) odd)

def find? (tree : KeyTree α) (key : Nat) : Option α := tree.findAt key key

/-- Lets `key` stand for `value`. -/
def insert (tree : KeyTree α) (key : Nat) (value : α) : KeyTree α := tree.insertAt key value key

@[simp] theorem find?_empty (key : Nat) : (empty : KeyTree α).find? key = none := rfl

/-- Two keys that have led to one place are led on alike. -/
theorem findAt_insertAt (tree : KeyTree α) {key other p q : Nat} (value : α)
    (hpath : other = key → q = p) :
    (tree.insertAt key value p).findAt other q =
      if other = key then some value else tree.findAt other q := by
  induction tree generalizing p q with
  | empty =>
    by_cases h : other = key
    · simp [insertAt, findAt, h]
    · simp [insertAt, findAt, h]
  | node held old even odd iheven ihodd =>
    have hnext : other = key → q / 2 = p / 2 := fun h => by rw [hpath h]
    by_cases hkey : key = held
    · by_cases h : other = key
      · simp [insertAt, findAt, hkey, h]
      · simp [insertAt, findAt, hkey, hkey ▸ h]
    · by_cases h : other = key
      · subst h
        obtain rfl := hpath rfl
        by_cases hdigit : q % 2 = 0
        · simpa [insertAt, findAt, hkey, hdigit] using iheven hnext
        · simpa [insertAt, findAt, hkey, hdigit] using ihodd hnext
      · by_cases hdigit : p % 2 = 0
        · simp only [insertAt, if_neg hkey, if_pos hdigit, findAt, iheven hnext, if_neg h]
        · simp only [insertAt, if_neg hkey, if_neg hdigit, findAt, ihodd hnext, if_neg h]

theorem find?_insert (tree : KeyTree α) (key other : Nat) (value : α) :
    (tree.insert key value).find? other =
      if other = key then some value else tree.find? other :=
  findAt_insertAt tree value id

end KeyTree
end BlockLang
