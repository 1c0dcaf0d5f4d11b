import Mathlib.Data.List.Nodup
import Lox.NameTable
import Lox.Proofs.NearestBinding

/-!
# Numbered names

An environment may know names by numbers only, which a table gives out as the names come up. What
it binds is then what is bound by the names themselves, whatever texts the table held before.

* `NameTable.Distinct`: a table in which no text has two numbers;
* `NumberedEnvironment`, with the same operations as an environment that knows the names;
* `NumberedEnvironment.Follows`: such an environment as a record of operations says, and
  `follows_apply`, `follows_run`.
-/

namespace Lox

/-! ### Tables without repetition -/

namespace NameTable

variable {t : NameTable} {s x y : String} {m n : Nat}

/-- No text has two numbers. -/
def Distinct (t : NameTable) : Prop := t.texts.toList.Nodup

instance : Decidable t.Distinct := inferInstanceAs (Decidable (List.Nodup _))

/-- The number of a text stands for it from then on. -/
theorem getElem?_insert_intern (t : NameTable) (s : String) :
    (t.insert s).texts[(t.intern s).1]? = some s := by
  rw [insert, intern]
  cases h : t.texts.idxOf? s with
  | none => simp [size]
  | some i =>
    rw [Array.idxOf?_eq_map_finIdxOf?_val] at h
    obtain ⟨i, hi, rfl⟩ := Option.map_eq_some_iff.1 h
    have htext : t.texts[i] = s := (Array.finIdxOf?_eq_some_iff.1 hi).1
    simpa using htext

theorem getElem?_number (h : x ∈ t.texts) : t.texts[t.number x]? = some x := by
  have hnumber := t.getElem?_insert_intern x
  rwa [insert_of_mem h] at hnumber

theorem lookup_of_getElem? (h : t.texts[n]? = some x) : t.lookup n = x := by
  rw [lookup, Array.getD_eq_getD_getElem?, h, Option.getD_some]

@[simp] theorem lookup_number (h : x ∈ t.texts) : t.lookup (t.number x) = x :=
  lookup_of_getElem? (getElem?_number h)

/-- A new text has the first number that stands for nothing. -/
theorem getElem?_insert (t : NameTable) (s : String) (n : Nat) :
    (t.insert s).texts[n]? = if s ∉ t.texts ∧ n = t.size then some s else t.texts[n]? := by
  by_cases h : s ∈ t.texts
  · simp [insert_of_mem h, h]
  · simp [insert_of_not_mem h, h, Array.getElem?_push, size]

theorem Distinct.insert (h : t.Distinct) (s : String) : (t.insert s).Distinct := by
  by_cases hs : s ∈ t.texts
  · rwa [insert_of_mem hs]
  · rw [insert_of_not_mem hs, Distinct, Array.toList_push]
    exact List.Nodup.append h (List.nodup_singleton s) (by simpa using hs)

theorem Distinct.insertAll (h : t.Distinct) (ss : List String) : (t.insertAll ss).Distinct := by
  induction ss generalizing t with
  | nil => exact h
  | cons s ss ih => exact ih (h.insert s)

/-- Texts that join a table are not put there twice. -/
theorem Distinct.grown (h : t.Distinct) {t' : NameTable} (hgrown : t'.GrownFrom t) :
    t'.Distinct := by
  obtain ⟨texts, rfl⟩ := hgrown
  exact h.insertAll texts

/-- Numbers of distinct texts are equal exactly when the texts are. -/
theorem Distinct.eq_iff (h : t.Distinct) (hm : t.texts[m]? = some x) (hn : t.texts[n]? = some y) :
    m = n ↔ x = y := by
  refine ⟨fun heq => ?_, fun heq => ?_⟩
  · subst heq
    exact Option.some.inj (hm.symm.trans hn)
  · subst heq
    have hlt : m < t.texts.toList.length := (Array.getElem?_eq_some_iff.1 hm).1
    refine (List.getElem?_inj hlt h).1 ?_
    rw [Array.getElem?_toList, Array.getElem?_toList, hm, hn]

/-- A text has one number. -/
theorem Distinct.number_eq (h : t.Distinct) (hn : t.texts[n]? = some x) : t.number x = n :=
  (h.eq_iff (getElem?_number (Array.mem_of_getElem? hn)) hn).2 rfl

end NameTable

/-! ### Environments that know numbers -/

/-- A table of names, the frame around each frame by number, the current frame, and what each frame
binds, by the numbers of the names. -/
structure NumberedEnvironment where
  names : NameTable
  parents : List (Option Nat)
  current : Nat
  bound : Nat → Nat → Option Value

namespace NumberedEnvironment

/-- A frame for the top level inside the global frame. The names may have been numbered before. -/
def fresh (names : NameTable) : NumberedEnvironment :=
  ⟨names, [none, some globalFrame], 1, fun _ _ => none⟩

/-- The path from the current frame to the global frame. -/
def path (e : NumberedEnvironment) : Scope := outward e.parents e.current

/-- The nearest frame from the current one outwards that binds a number. -/
def owner? (e : NumberedEnvironment) (n : Nat) : Option Nat :=
  e.path.find? fun i => (e.bound i n).isSome

/-- Numbers a name. -/
def know (e : NumberedEnvironment) (name : String) : NumberedEnvironment :=
  { e with names := e.names.insert name }

/-- Gives a number a value in a frame. -/
def write (e : NumberedEnvironment) (i n : Nat) (value : Value) : NumberedEnvironment :=
  { e with bound := fun j m => if j = i ∧ m = n then some value else e.bound j m }

/-- Makes a new frame, which is current from then on. -/
def inside (e : NumberedEnvironment) (i : Nat) : NumberedEnvironment :=
  { e with parents := e.parents ++ [some i], current := e.parents.length }

/-- What an operation does. A name is numbered when it is used, if it has no number. -/
def apply (e : NumberedEnvironment) : Operation → NumberedEnvironment
  | .define name value => (e.know name).write e.current (e.names.intern name).1 value
  | .defineGlobal name value => (e.know name).write globalFrame (e.names.intern name).1 value
  | .assign name value =>
    match e.owner? (e.names.intern name).1 with
    | some i => (e.know name).write i (e.names.intern name).1 value
    | none => e.know name
  | .push => e.inside e.current
  | .enter i => if i < e.parents.length then { e with current := i } else e
  | .enterChild i => if i < e.parents.length then e.inside i else e

/-- A fresh environment after operations. -/
def run (names : NameTable) (ops : List Operation) : NumberedEnvironment :=
  ops.foldl apply (fresh names)

/-! ### Numbers and records -/

/-- An environment is as a record says, which knows the names. -/
structure Follows (e : NumberedEnvironment) (l : Ledger) : Prop where
  distinct : e.names.Distinct
  parents : e.parents = l.parents
  current : e.current = l.current
  known : ∀ i x, (l.value? i x).isSome → x ∈ e.names.texts
  bound : ∀ i n, e.bound i n = e.names.texts[n]?.bind (l.value? i)

namespace Follows

variable {e : NumberedEnvironment} {l : Ledger} {i n : Nat} {x : String} {value : Value}

theorem fresh {names : NameTable} (h : names.Distinct) :
    (NumberedEnvironment.fresh names).Follows .fresh where
  distinct := h
  parents := rfl
  current := rfl
  known _ _ hx := nomatch hx
  bound i n := by
    have hnone : Ledger.fresh.value? i = fun _ => none := rfl
    rw [hnone, Option.bind_fun_none]
    rfl

theorem value?_eq_none (h : e.Follows l) (hx : x ∉ e.names.texts) (i : Nat) :
    l.value? i x = none :=
  Option.not_isSome_iff_eq_none.1 fun hsome => hx (h.known i x hsome)

/-- A number that is given out anew is bound nowhere. -/
theorem know (h : e.Follows l) (x : String) : (e.know x).Follows l where
  distinct := h.distinct.insert x
  parents := h.parents
  current := h.current
  known i y hy := (e.names.extends_insert x).mem (h.known i y hy)
  bound i n := by
    show e.bound i n = (e.names.insert x).texts[n]?.bind (l.value? i)
    rw [h.bound, NameTable.getElem?_insert]
    split
    · next hnew =>
      obtain ⟨hx, rfl⟩ := hnew
      have hfree : e.names.texts[e.names.size]? = none := Array.getElem?_eq_none (Nat.le_refl _)
      rw [hfree, Option.bind_some, h.value?_eq_none hx]
      rfl
    · rfl

theorem write (h : e.Follows l) (hn : e.names.texts[n]? = some x) :
    (e.write i n value).Follows (l.write i x value) where
  distinct := h.distinct
  parents := h.parents
  current := h.current
  known j y hy := by
    rw [Ledger.value?_write] at hy
    split at hy
    · next hat => exact hat.2 ▸ Array.mem_of_getElem? hn
    · exact h.known j y hy
  bound j m := by
    show (if j = i ∧ m = n then some value else e.bound j m) =
      e.names.texts[m]?.bind ((l.write i x value).value? j)
    cases hm : e.names.texts[m]? with
    | none =>
      have hne : m ≠ n := fun heq => by simp [heq, hn] at hm
      rw [if_neg fun hat => hne hat.2, h.bound, hm]
      rfl
    | some y =>
      rw [Option.bind_some, Ledger.value?_write, h.bound, hm, Option.bind_some]
      -- one side compares numbers, the other one their texts
      simp only [h.distinct.eq_iff hm hn]

theorem inside (h : e.Follows l) (i : Nat) : (e.inside i).Follows (l.inside i) where
  distinct := h.distinct
  parents := by rw [NumberedEnvironment.inside, Ledger.inside, h.parents]
  current := by rw [NumberedEnvironment.inside, Ledger.inside, h.parents]
  known := h.known
  bound := h.bound

theorem path_eq (h : e.Follows l) : e.path = l.path l.current := by
  rw [NumberedEnvironment.path, Ledger.path, h.parents, h.current]

theorem owner?_eq (h : e.Follows l) (hn : e.names.texts[n]? = some x) :
    e.owner? n = l.owner? l.current x := by
  simp only [NumberedEnvironment.owner?, Ledger.owner?, h.path_eq, h.bound, hn, Option.bind_some]

/-- An operation leads to an environment that is as the record of it says. -/
theorem apply (h : e.Follows l) (op : Operation) : (e.apply op).Follows (l.apply op) := by
  have hnumber (x : String) : (e.know x).names.texts[(e.names.intern x).1]? = some x :=
    e.names.getElem?_insert_intern x
  cases op with
  | define x value =>
    rw [NumberedEnvironment.apply, h.current]
    exact (h.know x).write (hnumber x)
  | defineGlobal x value => exact (h.know x).write (hnumber x)
  | assign x value =>
    have howner : e.owner? (e.names.intern x).1 = l.owner? l.current x :=
      (h.know x).owner?_eq (hnumber x)
    rw [NumberedEnvironment.apply, Ledger.apply, howner]
    cases l.owner? l.current x with
    | none => exact h.know x
    | some i => exact (h.know x).write (hnumber x)
  | push =>
    rw [NumberedEnvironment.apply, h.current]
    exact h.inside _
  | enter i =>
    rw [NumberedEnvironment.apply, Ledger.apply, h.parents]
    split
    · exact { h with parents := rfl, current := rfl }
    · exact h
  | enterChild i =>
    rw [NumberedEnvironment.apply, Ledger.apply, h.parents]
    split
    · exact h.inside i
    · exact h

theorem foldl (h : e.Follows l) (ops : List Operation) :
    (ops.foldl NumberedEnvironment.apply e).Follows (ops.foldl Ledger.apply l) := by
  induction ops generalizing e l with
  | nil => exact h
  | cons op ops ih => exact ih (h.apply op)

theorem run {names : NameTable} (h : names.Distinct) (ops : List Operation) :
    (NumberedEnvironment.run names ops).Follows (.run ops) :=
  (fresh h).foldl ops

end Follows

end NumberedEnvironment

end Lox
