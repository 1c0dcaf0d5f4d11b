import Lox.Token

/-!
# Name tables

A name table numbers distinct texts in the order in which they first occur. A fresh table holds
the empty text and the reserved words.

* `NameTable.intern`: the number of a text, which joins the table if it is new;
* `NameTable.number`: the number of a text that the table holds;
* `NameTable.lookup`: the text of a number;
* `NameTable.Extends`: tables that hold more texts, with the same numbers as before;
* `NameTable.GrownFrom`: tables that texts have joined one after another.
-/

namespace Lox

/-- The number of a text in a name table. -/
abbrev Name := Nat

/-- Distinct texts; the number of a text is its place. -/
structure NameTable where
  texts : Array String
  deriving DecidableEq, Repr

namespace NameTable

/-- The table that every reading of a program starts from. -/
def fresh : NameTable := ⟨("" :: Kind.keywords.map Kind.name).toArray⟩

/-- The number of texts. -/
def size (t : NameTable) : Nat := t.texts.size

/-- Whether a table holds no more than the empty text. -/
def isEmpty (t : NameTable) : Bool := t.size ≤ 1

/-- The number of a text, and the table with that text in it. -/
def intern (t : NameTable) (s : String) : Nat × NameTable :=
  match t.texts.idxOf? s with
  | some i => (i, t)
  | none => (t.size, ⟨t.texts.push s⟩)

/-- The number of a text that the table holds. -/
def number (t : NameTable) (s : String) : Name := (t.intern s).1

/-- The table after a text has joined it. -/
def insert (t : NameTable) (s : String) : NameTable := (t.intern s).2

/-- The table after texts have joined it one after another. -/
def insertAll (t : NameTable) (texts : List String) : NameTable := texts.foldl insert t

/-- The text of a number; a number that the table does not know stands for the empty text. -/
def lookup (t : NameTable) (i : Nat) : String := t.texts.getD i ""

theorem size_fresh : fresh.size = 15 := rfl

theorem insertAll_append (t : NameTable) (xs ys : List String) :
    t.insertAll (xs ++ ys) = (t.insertAll xs).insertAll ys := List.foldl_append

/-- A text that the table holds changes nothing. -/
theorem insert_of_mem {t : NameTable} {s : String} (h : s ∈ t.texts) : t.insert s = t := by
  obtain ⟨i, hi⟩ := Option.isSome_iff_exists.1 (Array.isSome_idxOf?.2 h)
  simp [insert, intern, hi]

/-- A new text is put at the end. -/
theorem insert_of_not_mem {t : NameTable} {s : String} (h : s ∉ t.texts) :
    t.insert s = ⟨t.texts.push s⟩ := by
  simp [insert, intern, Array.idxOf?_eq_none_iff.2 h]

theorem mem_insert (t : NameTable) (s : String) : s ∈ (t.insert s).texts := by
  by_cases h : s ∈ t.texts
  · rwa [insert_of_mem h]
  · rw [insert_of_not_mem h]
    exact Array.mem_push_self

/-! ### Growth -/

/-- The texts of `t` are the first ones of `t'`. -/
def Extends (t' t : NameTable) : Prop := ∃ added, t'.texts = t.texts ++ added

theorem extends_insert (t : NameTable) (s : String) : (t.insert s).Extends t := by
  by_cases h : s ∈ t.texts
  · exact ⟨#[], by rw [insert_of_mem h, Array.append_empty]⟩
  · exact ⟨#[s], by rw [insert_of_not_mem h]; rfl⟩

namespace Extends

variable {t t' t'' : NameTable}

theorem refl (t : NameTable) : t.Extends t := ⟨#[], Array.append_empty.symm⟩

theorem trans (h' : t''.Extends t') (h : t'.Extends t) : t''.Extends t := by
  obtain ⟨added', h'⟩ := h'
  obtain ⟨added, h⟩ := h
  exact ⟨added ++ added', by rw [h', h, Array.append_assoc]⟩

theorem mem (h : t'.Extends t) {s : String} (hs : s ∈ t.texts) : s ∈ t'.texts := by
  obtain ⟨added, h⟩ := h
  rw [h]
  exact Array.mem_append_left _ hs

/-- The number of a text stands for it in all tables that extend the one which gave it. -/
theorem lookup_intern (h : t'.Extends t) {s : String} (hs : s ∈ t.texts) :
    t'.lookup (t.intern s).1 = s := by
  obtain ⟨added, h⟩ := h
  obtain ⟨i, hi⟩ : ∃ i, t.texts.finIdxOf? s = some i := by
    rwa [← Option.isSome_iff_exists, Array.isSome_finIdxOf?, Array.contains_iff_mem]
  have htext : t.texts[i] = s := (Array.finIdxOf?_eq_some_iff.1 hi).1
  have hnumber : (t.intern s).1 = i := by
    simp [intern, Array.idxOf?_eq_map_finIdxOf?_val, hi]
  rw [hnumber, lookup, h, Array.getD_eq_getD_getElem?, Array.getElem?_append_left i.isLt]
  simpa using htext

end Extends

theorem extends_insertAll (t : NameTable) (ss : List String) : (t.insertAll ss).Extends t := by
  induction ss generalizing t with
  | nil => exact .refl t
  | cons s ss ih => exact (ih (t.insert s)).trans (t.extends_insert s)

/-- Texts that joined the table `t` have made `t'` of it. -/
def GrownFrom (t' t : NameTable) : Prop := ∃ texts, t' = t.insertAll texts

namespace GrownFrom

variable {t t' t'' : NameTable}

theorem refl (t : NameTable) : t.GrownFrom t := ⟨[], rfl⟩

theorem insert (t : NameTable) (s : String) : (t.insert s).GrownFrom t := ⟨[s], rfl⟩

theorem trans (h' : t''.GrownFrom t') (h : t'.GrownFrom t) : t''.GrownFrom t := by
  obtain ⟨xs, rfl⟩ := h
  obtain ⟨ys, rfl⟩ := h'
  exact ⟨xs ++ ys, (t.insertAll_append xs ys).symm⟩

theorem toExtends (h : t'.GrownFrom t) : t'.Extends t := by
  obtain ⟨texts, rfl⟩ := h
  exact t.extends_insertAll texts

end GrownFrom

end NameTable

end Lox
