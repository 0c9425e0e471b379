import BlockLang.KeyTree

/-!
# Numbered entries

A table grows at its end. Unlike an array it is cheap to change in one place while the old
one is kept, which a step needs that may fail.
-/

namespace BlockLang

structure Table (α : Type) where
  size : Nat
  entries : KeyTree α
  /-- The entries are numbered from zero on. -/
  filed : ∀ i, (entries.find? i).isSome = true ↔ i < size

namespace Table

def empty : Table α := ⟨0, .empty, by simp⟩

instance : Inhabited (Table α) := ⟨empty⟩

instance : GetElem? (Table α) Nat α fun t i => i < t.size where
  getElem t i h := (t.entries.find? i).get ((t.filed i).mpr h)
  getElem? t i := t.entries.find? i

/-- One more entry at the end. -/
def push (t : Table α) (a : α) : Table α where
  size := t.size + 1
  entries := t.entries.insert t.size a
  filed := by
    intro i
    have hi := t.filed i
    rw [KeyTree.find?_insert]
    split
    · simp [*]
    · rw [hi]
      omega

/-- Changes the entry `i`, if there is one. -/
def modify (t : Table α) (i : Nat) (f : α → α) : Table α :=
  match h : t.entries.find? i with
  | none => t
  | some a => {
      size := t.size
      entries := t.entries.insert i (f a)
      filed := by
        intro j
        have hj := t.filed j
        rw [KeyTree.find?_insert]
        split
        · subst j
          simpa [h] using hj
        · exact hj }

/-- The entries of a list, numbered in their order. -/
def ofList (entries : List α) : Table α := entries.foldl push empty

variable (t : Table α)

instance : LawfulGetElem (Table α) Nat α fun t i => i < t.size where
  getElem?_def t i h := by
    split
    · exact (Option.some_get _).symm
    · next hi =>
      have hnone : (t.entries.find? i).isSome = false := by simpa [hi] using t.filed i
      exact Option.isNone_iff_eq_none.mp (Option.isSome_eq_false_iff.mp hnone)

variable {t}

theorem getElem?_eq_getElem {i : Nat} (h : i < t.size) : t[i]? = some t[i] := getElem?_pos t i h

theorem getElem?_eq_none {i : Nat} (h : t.size ≤ i) : t[i]? = none :=
  getElem?_neg t i (Nat.not_lt.mpr h)

theorem getElem?_eq_some_iff {i : Nat} {a : α} :
    t[i]? = some a ↔ ∃ h : i < t.size, t[i] = a := by
  constructor
  · intro h
    by_cases hi : i < t.size
    · rw [getElem?_eq_getElem hi] at h
      exact ⟨hi, Option.some.inj h⟩
    · rw [getElem?_eq_none (Nat.le_of_not_lt hi)] at h
      cases h
  · rintro ⟨hi, rfl⟩
    exact getElem?_eq_getElem hi

variable (t)

@[simp] theorem size_empty : (empty : Table α).size = 0 := rfl

@[simp] theorem getElem?_empty (i : Nat) : (empty : Table α)[i]? = none := rfl

@[simp] theorem size_push (a : α) : (t.push a).size = t.size + 1 := rfl

theorem getElem?_push (a : α) (i : Nat) :
    (t.push a)[i]? = if i = t.size then some a else t[i]? :=
  KeyTree.find?_insert ..

@[simp] theorem getElem?_push_size (a : α) : (t.push a)[t.size]? = some a := by
  rw [getElem?_push, if_pos rfl]

@[simp] theorem size_modify (i : Nat) (f : α → α) : (t.modify i f).size = t.size := by
  unfold modify
  split <;> rfl

theorem getElem?_modify (i j : Nat) (f : α → α) :
    (t.modify i f)[j]? = if i = j then t[j]?.map f else t[j]? := by
  have hfound (j : Nat) : t[j]? = t.entries.find? j := rfl
  unfold modify
  split
  · next h =>
    split
    · simp [← ‹i = j›, hfound, h]
    · rfl
  · next a h =>
    have hinsert := KeyTree.find?_insert t.entries i j (f a)
    show (t.entries.insert i (f a)).find? j = _
    rw [hinsert]
    by_cases hij : i = j
    · simp [← hij, hfound, h]
    · simp [hij, Ne.symm hij, hfound]

theorem getElem?_foldl_push (t : Table α) (l : List α) (i : Nat) :
    (l.foldl push t)[i]? = if i < t.size then t[i]? else l[i - t.size]? := by
  induction l generalizing t with
  | nil =>
    split
    · rfl
    · next h => exact getElem?_eq_none (Nat.le_of_not_lt h)
  | cons a l ih =>
    rw [List.foldl_cons, ih, size_push, getElem?_push]
    rcases Nat.lt_trichotomy i t.size with h | h | h
    · rw [if_pos (Nat.lt_succ_of_lt h), if_neg (Nat.ne_of_lt h), if_pos h]
    · simp [h]
    · rw [if_neg (Nat.not_lt.mpr h), if_neg (Nat.lt_asymm h), ← Nat.succ_pred_eq_of_pos
        (Nat.sub_pos_of_lt h), List.getElem?_cons_succ]
      congr 1

theorem getElem?_ofList (l : List α) (i : Nat) : (ofList l)[i]? = l[i]? := by
  rw [ofList, getElem?_foldl_push]
  rfl

end Table
end BlockLang
