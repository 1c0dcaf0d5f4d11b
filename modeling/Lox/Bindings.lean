/-!
# Bindings

Bindings give values to names. They are kept in the order of the names, so that bindings which
give the same values to the same names are equal.

* `Bindings`, `Bindings.get?`, `Bindings.insert`;
* `get?_insert`: a name has the value that was inserted for it last;
* `Bindings.ext_get?`: bindings are determined by the values they give.
-/

namespace Lox

/-- Names with values, in the order of the names. -/
structure Bindings (α : Type) where
  entries : List (String × α)
  sorted : entries.Pairwise fun a b => a.1 < b.1

namespace Bindings

variable {α : Type}

/-- No bindings. -/
def empty : Bindings α := ⟨[], .nil⟩

instance : EmptyCollection (Bindings α) := ⟨empty⟩

instance : Inhabited (Bindings α) := ⟨empty⟩

/-- The number of names. -/
def size (b : Bindings α) : Nat := b.entries.length

/-- The value of a name. -/
def get? (b : Bindings α) (name : String) : Option α := b.entries.lookup name

/-- Puts a value for a name into entries that are in order, in place of the value it has. -/
def insertEntry (name : String) (value : α) : List (String × α) → List (String × α)
  | [] => [(name, value)]
  | (x, v) :: rest =>
    if name = x then (name, value) :: rest
    else if name < x then (name, value) :: (x, v) :: rest
    else (x, v) :: insertEntry name value rest

theorem lt_of_ne_of_not_lt {x y : String} (hne : x ≠ y) (hge : ¬ x < y) : y < x :=
  Decidable.byContradiction fun h =>
    hne (String.le_antisymm (String.not_lt.1 h) (String.not_lt.1 hge))

theorem mem_insertEntry {name : String} {value : α} {es : List (String × α)} {e : String × α}
    (h : e ∈ insertEntry name value es) : e = (name, value) ∨ e ∈ es := by
  induction es with
  | nil => simpa [insertEntry] using h
  | cons a rest ih =>
    obtain ⟨x, v⟩ := a
    rw [insertEntry] at h
    split at h
    · rcases List.mem_cons.1 h with h | h
      · exact .inl h
      · exact .inr (List.mem_cons_of_mem _ h)
    · split at h
      · exact List.mem_cons.1 h
      · rcases List.mem_cons.1 h with h | h
        · exact .inr (h ▸ List.mem_cons_self)
        · exact (ih h).imp_right (List.mem_cons_of_mem _)

theorem pairwise_insertEntry (name : String) (value : α) {es : List (String × α)}
    (h : es.Pairwise fun a b => a.1 < b.1) :
    (insertEntry name value es).Pairwise fun a b => a.1 < b.1 := by
  induction es with
  | nil => simp [insertEntry]
  | cons a rest ih =>
    obtain ⟨x, v⟩ := a
    obtain ⟨hx, hrest⟩ := List.pairwise_cons.1 h
    rw [insertEntry]
    split
    next heq => exact List.pairwise_cons.2 ⟨fun e he => heq ▸ hx e he, hrest⟩
    next hne =>
      split
      next hlt =>
        refine List.pairwise_cons.2 ⟨fun e he => ?_, h⟩
        rcases List.mem_cons.1 he with rfl | he
        · exact hlt
        · exact String.lt_trans hlt (hx e he)
      next hge =>
        refine List.pairwise_cons.2 ⟨fun e he => ?_, ih hrest⟩
        rcases mem_insertEntry he with rfl | he
        · exact lt_of_ne_of_not_lt hne hge
        · exact hx e he

/-- Gives a value to a name, in place of the value it has. -/
def insert (b : Bindings α) (name : String) (value : α) : Bindings α :=
  ⟨insertEntry name value b.entries, pairwise_insertEntry name value b.sorted⟩

@[simp] theorem get?_empty (name : String) : (∅ : Bindings α).get? name = none := rfl

theorem lookup_insertEntry (name x : String) (value : α) (es : List (String × α)) :
    (insertEntry name value es).lookup x = if x = name then some value else es.lookup x := by
  induction es with
  | nil =>
    by_cases h : x = name
    · simp [insertEntry, h]
    · simp [insertEntry, List.lookup_cons, h, beq_eq_false_iff_ne.2 h]
  | cons a rest ih =>
    obtain ⟨y, v⟩ := a
    rw [insertEntry]
    split
    next heq =>
      by_cases h : x = name
      · simp [h]
      · simp [List.lookup_cons, h, beq_eq_false_iff_ne.2 h, beq_eq_false_iff_ne.2 (heq ▸ h)]
    next hne =>
      split
      next =>
        by_cases h : x = name
        · simp [h]
        · rw [List.lookup_cons, beq_eq_false_iff_ne.2 h, if_neg h]
      next =>
        by_cases hxy : x = y
        · have hxn : x ≠ name := fun h => hne (h ▸ hxy)
          simp [hxy, Ne.symm hne]
        · rw [List.lookup_cons, List.lookup_cons, beq_eq_false_iff_ne.2 hxy, ih]

/-- A name has the value that was given to it last. -/
theorem get?_insert (b : Bindings α) (name x : String) (value : α) :
    (b.insert name value).get? x = if x = name then some value else b.get? x :=
  lookup_insertEntry name x value b.entries

theorem lookup_eq_none_of_lt {x : String} {es : List (String × α)} (h : ∀ e ∈ es, x < e.1) :
    es.lookup x = none := by
  induction es with
  | nil => rfl
  | cons a rest ih =>
    obtain ⟨y, v⟩ := a
    have hxy : x ≠ y := fun heq =>
      String.lt_irrefl y (heq ▸ h (y, v) List.mem_cons_self)
    rw [List.lookup_cons, beq_eq_false_iff_ne.2 hxy]
    exact ih fun e he => h e (List.mem_cons_of_mem _ he)

theorem eq_of_lookup_eq {es fs : List (String × α)}
    (hes : es.Pairwise fun a b => a.1 < b.1) (hfs : fs.Pairwise fun a b => a.1 < b.1)
    (h : ∀ x, es.lookup x = fs.lookup x) : es = fs := by
  induction es generalizing fs with
  | nil =>
    cases fs with
    | nil => rfl
    | cons b fs =>
      obtain ⟨y, w⟩ := b
      have := h y
      simp at this
  | cons a es ih =>
    obtain ⟨x, v⟩ := a
    cases fs with
    | nil =>
      have := h x
      simp at this
    | cons b fs =>
      obtain ⟨y, w⟩ := b
      obtain ⟨hx, hes'⟩ := List.pairwise_cons.1 hes
      obtain ⟨hy, hfs'⟩ := List.pairwise_cons.1 hfs
      have hnlt : ¬ x < y := fun hlt => by
        have hn : ((y, w) :: fs).lookup x = none := lookup_eq_none_of_lt fun e he => by
          rcases List.mem_cons.1 he with rfl | he
          · exact hlt
          · exact String.lt_trans hlt (hy e he)
        have := h x
        rw [hn] at this
        simp at this
      have hngt : ¬ y < x := fun hlt => by
        have hn : ((x, v) :: es).lookup y = none := lookup_eq_none_of_lt fun e he => by
          rcases List.mem_cons.1 he with rfl | he
          · exact hlt
          · exact String.lt_trans hlt (hx e he)
        have := h y
        rw [hn] at this
        simp at this
      have hxy : x = y := String.le_antisymm (String.not_lt.1 hngt) (String.not_lt.1 hnlt)
      subst hxy
      have hvw : v = w := by
        have := h x
        simpa using this
      subst hvw
      congr 1
      refine ih hes' hfs' fun z => ?_
      have hz := h z
      by_cases hzx : z = x
      · subst hzx
        rw [lookup_eq_none_of_lt hx, lookup_eq_none_of_lt hy]
      · rwa [List.lookup_cons, List.lookup_cons, beq_eq_false_iff_ne.2 hzx] at hz

/-- Bindings that give the same values to the same names are equal. -/
theorem ext_get? {b c : Bindings α} (h : ∀ x, b.get? x = c.get? x) : b = c := by
  obtain ⟨es, hes⟩ := b
  obtain ⟨fs, hfs⟩ := c
  congr
  exact eq_of_lookup_eq hes hfs h

end Bindings

end Lox
