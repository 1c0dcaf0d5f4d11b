import Std.Data.HashMap.Lemmas
import Mathlib.Data.Finset.Card
import Mathlib.Data.List.Forall2
import Lox.Proofs.Gathering
import Lox.Proofs.Lexing
import Lox.Proofs.NumberedNames

/-!
# Numbers and texts both ways

An interner finds the number of a text in a hash map and the text of a number in an array. It starts
with the empty text and the reserved words, and a text that is new to it takes the next number, for
as long as there are numbers of 32 bits. The map and the array stay inverse to each other, and the
interner gives out the same numbers as a name table, which has the array only.

* `NameTable.internAll`: texts that join a table one after another, with their numbers;
* `NameTable.toList_texts_insertAll`: the texts stand in the order in which they first occurred;
* `knownTexts`, and the size of a table that was new;
* `Interner`, with `Interner.intern`, `Interner.lookup` and `Interner.run`;
* `Interner.Indexes`: the map is the inverse of the texts of a table, with `Indexes.intern` for one
  text and `Indexes.internAll` for several;
* `Interner.Answers`: what numbers and texts have to do with each other after a run;
* `interner_bijective`.
-/

namespace Lox

/-! ### Texts that join a table -/

namespace NameTable

variable {t t' : NameTable} {s : String} {n : Nat}

/-- The numbers of texts that join a table one after another, and the table after them. -/
def internAll (t : NameTable) : List String → List Nat × NameTable
  | [] => ([], t)
  | s :: ss => ((t.intern s).1 :: ((t.insert s).internAll ss).1, ((t.insert s).internAll ss).2)

theorem internAll_snd (t : NameTable) (ss : List String) :
    (t.internAll ss).2 = t.insertAll ss := by
  induction ss generalizing t with
  | nil => rfl
  | cons s ss ih => exact ih (t.insert s)

theorem Extends.getElem?_texts (h : t'.Extends t) (hn : t.texts[n]? = some s) :
    t'.texts[n]? = some s := by
  obtain ⟨added, h⟩ := h
  rw [h, Array.getElem?_append_left (Array.getElem?_eq_some_iff.1 hn).1, hn]

theorem Extends.size_le (h : t'.Extends t) : t.size ≤ t'.size := by
  obtain ⟨added, h⟩ := h
  rw [size, size, h, Array.size_append]
  exact Nat.le_add_right _ _

/-- The numbers that texts got stand for them from then on. -/
theorem forall₂_internAll {ss : List String} (h : t'.Extends (t.insertAll ss)) :
    List.Forall₂ (fun n s => t'.texts[n]? = some s) (t.internAll ss).1 ss := by
  induction ss generalizing t with
  | nil => exact .nil
  | cons s ss ih =>
    have hs : t'.Extends (t.insert s) := h.trans ((t.insert s).extends_insertAll ss)
    exact .cons (hs.getElem?_texts (t.getElem?_insert_intern s)) (ih h)

/-- A text joins the table at the end, if it has not occurred before. -/
theorem toList_texts_insert {xs : List String} (h : t.texts.toList = xs.eraseDups) (s : String) :
    (t.insert s).texts.toList = (xs ++ [s]).eraseDups := by
  have hmem : s ∈ t.texts ↔ s ∈ xs := by rw [← Array.mem_toList_iff, h, List.mem_eraseDups]
  rw [List.eraseDups_append, ← h]
  by_cases hs : s ∈ xs
  · simp [insert_of_mem (hmem.2 hs), List.removeAll, hs]
  · simp [insert_of_not_mem (mt hmem.1 hs), List.removeAll, hs, List.eraseDups_cons]

/-- The texts of a table stand in the order in which they first occurred. -/
theorem toList_texts_insertAll {xs : List String} (h : t.texts.toList = xs.eraseDups)
    (ss : List String) : (t.insertAll ss).texts.toList = (xs ++ ss).eraseDups := by
  induction ss generalizing t xs with
  | nil => rwa [List.append_nil]
  | cons s ss ih =>
    rw [List.append_cons]
    exact ih (toList_texts_insert h s)

end NameTable

/-! ### Texts known from the start -/

/-- The empty text, and the reserved words. -/
def knownTexts : List String := "" :: Kind.keywords.map Kind.name

theorem knownTexts_nodup : knownTexts.Nodup := by decide

theorem card_knownTexts_append (ss : List String) :
    (knownTexts ++ ss).toFinset.card = 15 + (ss.toFinset \ knownTexts.toFinset).card := by
  have hknown : knownTexts.toFinset.card = 15 := by
    rw [List.toFinset_card_of_nodup knownTexts_nodup]
    rfl
  rw [List.toFinset_append, Finset.union_comm, ← Finset.card_sdiff_add_card, hknown,
    Nat.add_comm _ 15]

namespace NameTable

theorem distinct_fresh : fresh.Distinct := knownTexts_nodup

theorem toList_texts_fresh_insertAll (ss : List String) :
    (fresh.insertAll ss).texts.toList = (knownTexts ++ ss).eraseDups :=
  toList_texts_insertAll (by decide) ss

theorem mem_texts_fresh_insertAll {s : String} {ss : List String} :
    s ∈ (fresh.insertAll ss).texts ↔ s ∈ knownTexts ++ ss := by
  rw [← Array.mem_toList_iff, toList_texts_fresh_insertAll, List.mem_eraseDups]

theorem size_fresh_insertAll (ss : List String) :
    (fresh.insertAll ss).size = (knownTexts ++ ss).toFinset.card := by
  have hset : (fresh.insertAll ss).texts.toList.toFinset = (knownTexts ++ ss).toFinset := by
    ext s
    rw [List.mem_toFinset, List.mem_toFinset, Array.mem_toList_iff, mem_texts_fresh_insertAll]
  rw [← hset, List.toFinset_card_of_nodup (distinct_fresh.insertAll ss), Array.length_toList]
  rfl

end NameTable

/-! ### Interners -/

/-- The numbers of texts, and the texts by their numbers. -/
structure Interner where
  numbers : Std.HashMap String UInt32
  texts : Array String

namespace Interner

/-- The interner of the empty text. -/
def ofEmpty : Interner := ⟨Std.HashMap.emptyWithCapacity.insert "" 0, #[""]⟩

/-- The number of texts. -/
def size (t : Interner) : Nat := t.texts.size

/-- The number of a text, and the interner with that text in it; nothing if the text is new and all
numbers are taken. -/
def intern (t : Interner) (s : String) : Option (UInt32 × Interner) :=
  match t.numbers[s]? with
  | some n => some (n, t)
  | none =>
    if t.size < UInt32.size then
      some (.ofNat t.size, ⟨t.numbers.insert s (.ofNat t.size), t.texts.push s⟩)
    else none

/-- The text of a number; a number of another interner stands for the empty text. -/
def lookup (t : Interner) (n : UInt32) : String := t.texts.getD n.toNat ""

/-- The numbers of texts one after another, and the interner after them. -/
def internAll (t : Interner) : List String → Option (List UInt32 × Interner)
  | [] => some ([], t)
  | s :: ss => do
    let (n, t') ← t.intern s
    let (ns, t'') ← t'.internAll ss
    return (n :: ns, t'')

/-- A new interner knows the reserved words. -/
def fresh? : Option Interner := (ofEmpty.internAll (Kind.keywords.map Kind.name)).map Prod.snd

/-- The numbers of texts that a new interner is called with, and the interner after the calls. -/
def run (calls : List String) : Option (List UInt32 × Interner) := do
  let t ← fresh?
  t.internAll calls

/-! ### The two sides -/

variable {t t' : Interner} {names : NameTable} {s : String} {n : UInt32} {ns : List UInt32}
  {ss : List String}

/-- The texts are those of a table without repetition, and the map is inverse to them. -/
structure Indexes (t : Interner) (names : NameTable) : Prop where
  texts : t.texts = names.texts
  distinct : names.Distinct
  size_le : names.size ≤ UInt32.size
  inverse : ∀ (s : String) (n : UInt32),
    t.numbers[s]? = some n ↔ names.texts[n.toNat]? = some s

namespace Indexes

theorem ofEmpty : Interner.ofEmpty.Indexes ⟨#[""]⟩ where
  texts := rfl
  distinct := by decide
  size_le := by decide
  inverse s n := by
    have hzero : n.toNat = 0 ↔ 0 = n := by rw [← UInt32.toNat_inj, eq_comm]; rfl
    by_cases hs : "" = s
    · subst hs
      simp [Interner.ofEmpty, List.getElem?_singleton, hzero]
    · simp [Interner.ofEmpty, List.getElem?_singleton, hs]

theorem size_eq (h : t.Indexes names) : t.size = names.size := by
  rw [Interner.size, NameTable.size, h.texts]

/-- A text of the table is in the map. -/
theorem exists_number (h : t.Indexes names) (hs : s ∈ names.texts) :
    ∃ n, t.numbers[s]? = some n ∧ n.toNat < names.size := by
  obtain ⟨i, hi, rfl⟩ := Array.mem_iff_getElem.1 hs
  have hsize : (UInt32.ofNat i).toNat = i :=
    UInt32.toNat_ofNat_of_lt' (Nat.lt_of_lt_of_le hi h.size_le)
  exact ⟨.ofNat i, (h.inverse _ _).2 (by simp [hsize]), hsize.symm ▸ hi⟩

/-- A known text gets its number, and changes nothing. -/
theorem intern_of_mem (h : t.Indexes names) (hs : s ∈ names.texts) :
    ∃ n, t.intern s = some (n, t) ∧ n.toNat = (names.intern s).1 := by
  obtain ⟨n, hn, -⟩ := h.exists_number hs
  refine ⟨n, by rw [intern, hn], ?_⟩
  have hnumber := names.getElem?_insert_intern s
  rw [NameTable.insert_of_mem hs] at hnumber
  exact (h.distinct.eq_iff ((h.inverse s n).1 hn) hnumber).2 rfl

theorem getElem?_numbers_of_not_mem (h : t.Indexes names) (hs : s ∉ names.texts) :
    t.numbers[s]? = none := by
  refine Option.eq_none_iff_forall_ne_some.2 fun n hn => hs ?_
  exact Array.mem_of_getElem? ((h.inverse s n).1 hn)

/-- A new text gets the next number, on both sides. -/
theorem push (h : t.Indexes names) (hs : s ∉ names.texts) (hsize : names.size < UInt32.size) :
    Indexes ⟨t.numbers.insert s (.ofNat names.size), t.texts.push s⟩ (names.insert s) where
  texts := by rw [NameTable.insert_of_not_mem hs, h.texts]
  distinct := h.distinct.insert s
  size_le := by
    rw [NameTable.insert_of_not_mem hs, NameTable.size, Array.size_push]
    exact hsize
  inverse x n := by
    have hnumber : .ofNat names.size = n ↔ n.toNat = names.size := by
      rw [← UInt32.toNat_inj, UInt32.toNat_ofNat_of_lt' hsize, eq_comm]
    have hold : names.texts[n.toNat]? = some s ↔ False :=
      iff_false_intro fun hn => hs (Array.mem_of_getElem? hn)
    rw [Std.HashMap.getElem?_insert, NameTable.getElem?_insert]
    -- the new text had no number, and the new number stood for no text
    by_cases hx : s = x
    · subst hx
      simp [hs, hnumber, hold]
    · by_cases hn : n.toNat = names.size
      · have hfree : t.numbers[x]? = some n ↔ False := by
          rw [h.inverse, hn]
          simp [NameTable.size]
        simp [hs, hx, hn, hfree]
      · simp [hx, hn, h.inverse]

/-- One text. The interner gives out the number that the table gives out, or the table has become
too large for numbers of 32 bits. -/
theorem intern (h : t.Indexes names) (s : String) :
    match t.intern s with
    | some (n, t') => n.toNat = (names.intern s).1 ∧ t'.Indexes (names.insert s)
    | none => UInt32.size < (names.insert s).size := by
  by_cases hs : s ∈ names.texts
  · obtain ⟨n, hintern, hn⟩ := h.intern_of_mem hs
    rw [hintern, NameTable.insert_of_mem hs]
    exact ⟨hn, h⟩
  · have hnext : (names.intern s).1 = names.size := by
      rw [NameTable.intern, Array.idxOf?_eq_none_iff.2 hs]
    rw [Interner.intern, h.getElem?_numbers_of_not_mem hs, h.size_eq]
    by_cases hsize : names.size < UInt32.size
    · simp only [if_pos hsize]
      exact ⟨by rw [UInt32.toNat_ofNat_of_lt' hsize, hnext], h.push hs hsize⟩
    · simp only [if_neg hsize]
      rw [NameTable.insert_of_not_mem hs, NameTable.size, Array.size_push]
      exact Nat.lt_succ_of_le (Nat.le_of_not_lt hsize)

/-- Several texts, one after another. -/
theorem internAll (h : t.Indexes names) (ss : List String) :
    match t.internAll ss with
    | some (ns, t') =>
      ns.map UInt32.toNat = (names.internAll ss).1 ∧ t'.Indexes (names.insertAll ss)
    | none => UInt32.size < (names.insertAll ss).size := by
  induction ss generalizing t names with
  | nil => exact ⟨rfl, h⟩
  | cons s ss ih =>
    have hstep := h.intern s
    rw [Interner.internAll]
    cases hintern : t.intern s with
    | none =>
      rw [hintern] at hstep
      exact Nat.lt_of_lt_of_le hstep ((names.insert s).extends_insertAll ss).size_le
    | some r =>
      rw [hintern] at hstep
      have hrest := ih hstep.2
      cases hinternAll : r.2.internAll ss with
      | none =>
        rw [hinternAll] at hrest
        simp only [Option.bind_eq_bind, Option.bind_some, hinternAll, Option.bind_none]
        exact hrest
      | some q =>
        rw [hinternAll] at hrest
        simp only [Option.bind_eq_bind, Option.bind_some, hinternAll]
        exact ⟨by rw [List.map_cons, hstep.1, hrest.1, NameTable.internAll], hrest.2⟩

theorem internAll_some (h : t.Indexes names) (hrun : t.internAll ss = some (ns, t')) :
    ns.map UInt32.toNat = (names.internAll ss).1 ∧ t'.Indexes (names.insertAll ss) := by
  simpa only [hrun] using h.internAll ss

/-- Texts get numbers exactly when there are no more of them than numbers. -/
theorem isSome_internAll (h : t.Indexes names) (ss : List String) :
    (t.internAll ss).isSome ↔ (names.insertAll ss).size ≤ UInt32.size := by
  have hrun := h.internAll ss
  cases hinternAll : t.internAll ss with
  | none =>
    rw [hinternAll] at hrun
    simpa using hrun
  | some r =>
    rw [hinternAll] at hrun
    simpa using hrun.2.size_le

/-- A new interner has what a new table has. -/
theorem fresh : ∃ t, fresh? = some t ∧ t.Indexes .fresh := by
  have hfresh : (⟨#[""]⟩ : NameTable).insertAll (Kind.keywords.map Kind.name) = .fresh := by
    decide +kernel
  have hsome := (ofEmpty.isSome_internAll (Kind.keywords.map Kind.name)).2 (by rw [hfresh]; decide)
  obtain ⟨⟨ns, t⟩, ht⟩ := Option.isSome_iff_exists.1 hsome
  exact ⟨t, by rw [fresh?, ht]; rfl, hfresh ▸ (ofEmpty.internAll_some ht).2⟩

end Indexes

/-! ### Runs -/

/-- The calls of a new interner start where those of a new table start. -/
theorem exists_run_eq (calls : List String) :
    ∃ t : Interner, t.Indexes .fresh ∧ run calls = t.internAll calls := by
  obtain ⟨t, hfresh, ht⟩ := Indexes.fresh
  exact ⟨t, ht, by rw [run, hfresh]; rfl⟩

/-- Numbers that stand for texts are looked up as these texts. -/
theorem map_lookup (h : List.Forall₂ (fun n s => t.texts[n.toNat]? = some s) ns ss) :
    ns.map t.lookup = ss := by
  rw [← List.forall₂_eq_eq_eq, List.forall₂_map_left_iff]
  exact h.imp fun n s hn => by rw [lookup, Array.getD_eq_getD_getElem?, hn, Option.getD_some]

namespace Indexes

/-- The numbers that texts got stand for them in every later interner. -/
theorem forall₂_internAll {names₀ : NameTable} (h : t.Indexes names)
    (hns : ns.map UInt32.toNat = (names₀.internAll ss).1)
    (hnames : names.Extends (names₀.insertAll ss)) :
    List.Forall₂ (fun n s => t.texts[n.toNat]? = some s) ns ss := by
  have hall := NameTable.forall₂_internAll hnames
  rwa [← hns, List.forall₂_map_left_iff, ← h.texts] at hall

/-- Texts are found in the map with the numbers that stand for them. -/
theorem map_numbers (ht : t.Indexes names)
    (h : List.Forall₂ (fun n s => t.texts[n.toNat]? = some s) ns ss) :
    ns.map some = ss.map (t.numbers[·]?) := by
  rw [← List.forall₂_eq_eq_eq, List.forall₂_map_left_iff, List.forall₂_map_right_iff]
  exact h.imp fun n s hn => ((ht.inverse s n).2 (by rw [← ht.texts, hn])).symm

/-- Numbers that stand for texts are the same exactly where the texts are. -/
theorem getElem?_eq_iff (ht : t.Indexes names)
    (h : List.Forall₂ (fun n s => t.texts[n.toNat]? = some s) ns ss) (i j : Nat) :
    ns[i]? = ns[j]? ↔ ss[i]? = ss[j]? := by
  constructor
  · intro hij
    rw [← map_lookup h, List.getElem?_map, List.getElem?_map, hij]
  · intro hij
    have hsome : (ns.map some)[i]? = (ns.map some)[j]? := by
      rw [ht.map_numbers h, List.getElem?_map, List.getElem?_map, hij]
    rw [List.getElem?_map, List.getElem?_map] at hsome
    exact Option.map_injective (Option.some_injective _) hsome

end Indexes

/-- What numbers and texts have to do with each other when a new interner has been called with
`calls`, has given out `numbers` and has become `t`. -/
structure Answers (calls : List String) (numbers : List UInt32) (t : Interner) : Prop where
  /-- The map and the array are inverse to each other. -/
  inverse : ∀ (s : String) (n : UInt32), t.numbers[s]? = some n ↔ t.texts[n.toNat]? = some s
  /-- The texts known from the start and those of the calls have numbers below the size, and no
  others have. -/
  known : ∀ s, s ∈ knownTexts ++ calls ↔ ∃ n, t.numbers[s]? = some n ∧ n.toNat < t.size
  /-- A number of a call stands for its text, whatever is interned later. -/
  lookup : ∀ later numbers' t', t.internAll later = some (numbers', t') →
    numbers.map t'.lookup = calls
  /-- Calls give the same number exactly when their texts are the same. -/
  eq_iff : ∀ i j : Nat, numbers[i]? = numbers[j]? ↔ calls[i]? = calls[j]?
  /-- A known text gets its number again, and nothing changes. -/
  intern_known : ∀ s ∈ knownTexts ++ calls, ∃ n, t.lookup n = s ∧ t.intern s = some (n, t)
  /-- The texts stand in the order in which they first occurred. -/
  order : t.texts.toList = (knownTexts ++ calls).eraseDups
  /-- The empty text has the number zero, and the reserved words have the next ones. -/
  start : knownTexts <+: t.texts.toList
  /-- The name table gives out the same numbers, and holds the same texts. -/
  agrees : (numbers.map UInt32.toNat, ⟨t.texts⟩) = NameTable.fresh.internAll calls

theorem answers_of_run {calls : List String} (h : run calls = some (ns, t)) :
    Answers calls ns t := by
  obtain ⟨t₀, hfresh, hrun⟩ := exists_run_eq calls
  obtain ⟨hns, ht⟩ := hfresh.internAll_some (hrun.symm.trans h)
  have hstand := ht.forall₂_internAll hns (.refl _)
  have htexts : t.texts.toList = (knownTexts ++ calls).eraseDups := by
    rw [ht.texts, NameTable.toList_texts_fresh_insertAll]
  exact {
    inverse s n := by rw [ht.texts, ht.inverse]
    known s := by
      rw [← NameTable.mem_texts_fresh_insertAll]
      constructor
      · intro hs
        rw [ht.size_eq]
        exact ht.exists_number hs
      · rintro ⟨n, hn, -⟩
        exact Array.mem_of_getElem? ((ht.inverse s n).1 hn)
    lookup later ns' t' hlater := by
      have ht' := (ht.internAll_some hlater).2
      exact map_lookup (ht'.forall₂_internAll hns (NameTable.extends_insertAll _ later))
    eq_iff := ht.getElem?_eq_iff hstand
    intern_known s hs := by
      obtain ⟨n, hn, -⟩ := ht.exists_number (NameTable.mem_texts_fresh_insertAll.2 hs)
      have htext : t.texts[n.toNat]? = some s := by rw [ht.texts, ← ht.inverse, hn]
      refine ⟨n, ?_, by rw [intern, hn]⟩
      rw [Interner.lookup, Array.getD_eq_getD_getElem?, htext, Option.getD_some]
    order := htexts
    start := by
      have hknown : knownTexts.eraseDups = knownTexts := by decide
      rw [htexts, List.eraseDups_append, hknown]
      exact List.prefix_append _ _
    agrees := by rw [hns, ht.texts, ← NameTable.internAll_snd] }

end Interner

/-- A new interner numbers the texts that it is called with, as long as there are at most `2 ^ 32`
with those that it knows from the start; numbers and texts are then inverse to each other. When a
source has been read with a new table, this has been called with the names and strings of the
source, so that it holds those of the trees that it did not know from the start, and fifteen
more. -/
theorem interner_bijective :
    (∀ calls, (Interner.run calls).isSome ↔ (knownTexts ++ calls).toFinset.card ≤ UInt32.size) ∧
    (∀ calls numbers t, Interner.run calls = some (numbers, t) →
      Interner.Answers calls numbers t) ∧
    ∀ source tokens program, lex source = .ok tokens → (parse .fresh tokens).1 = .ok program →
      (parse .fresh tokens).2 =
        (NameTable.fresh.internAll (textsOf (tokens.map Token.symbol))).2 ∧
      (parse .fresh tokens).2.size =
        15 + ((program.nodes.flatMap Node.texts).toFinset \ knownTexts.toFinset).card := by
  refine ⟨fun calls => ?_, fun calls numbers t => Interner.answers_of_run, ?_⟩
  · obtain ⟨t, ht, hrun⟩ := Interner.exists_run_eq calls
    rw [hrun, ht.isSome_internAll, NameTable.size_fresh_insertAll]
  · intro source tokens program hlex hparse
    obtain ⟨ts, eof, rfl, heof, -, hts⟩ := lex_eq_ok hlex
    obtain ⟨hnames, htexts⟩ := parse_gathers hts heof hparse
    have hend : textsOf [eof.symbol] = [] := List.filterMap_cons_none (Token.text?_of_isEnd heof)
    have hset : (textsOf (ts.map Token.symbol)).toFinset =
        (program.nodes.flatMap Node.texts).toFinset := by
      ext x
      simp [htexts]
    constructor
    · rw [hnames, List.map_append, textsOf_append, List.map_singleton, hend, List.append_nil,
        NameTable.internAll_snd]
    · rw [hnames, NameTable.size_fresh_insertAll, card_knownTexts_append, hset]

/-- A string that is a reserved word, the empty string, and names that come up again. -/
def repeatingSource : String :=
  "var a = \"\"; fun f(b, a) \x7b a.c = b.a; return \"while\" + a; \x7d"

/-- Of the texts, `a`, `f`, `b` and `c` are new. -/
theorem interner_bijective_repeatingSource :
    (∃ numbers t, Interner.run ["a", "while", "a"] = some (numbers, t) ∧
      numbers.map t.lookup = ["a", "while", "a"] ∧ numbers[0]? = numbers[2]? ∧
      numbers[0]? ≠ numbers[1]?) ∧
    ∃ tokens program, lex repeatingSource = .ok tokens ∧
      (parse .fresh tokens).1 = .ok program ∧ (parse .fresh tokens).2.size = 19 := by
  obtain ⟨hruns, hanswers, hparse⟩ := interner_bijective
  constructor
  · obtain ⟨⟨numbers, t⟩, hrun⟩ := Option.isSome_iff_exists.1 <|
      (hruns ["a", "while", "a"]).2 (Nat.le_trans (List.toFinset_card_le _) (by decide))
    have h := hanswers _ _ _ hrun
    exact ⟨numbers, t, hrun, h.lookup [] [] t rfl, (h.eq_iff 0 2).2 rfl,
      mt (h.eq_iff 0 1).1 (by decide)⟩
  · have htexts : ((lex repeatingSource).toOption.bind fun tokens =>
        (parse .fresh tokens).1.toOption.map fun program => program.nodes.flatMap Node.texts) =
        some ["a", "", "f", "b", "a", "c", "a", "a", "b", "while", "a"] := by
      decide +kernel
    cases hlex : lex repeatingSource with
    | error e => simp [hlex, Except.toOption] at htexts
    | ok tokens =>
      cases hread : (parse .fresh tokens).1 with
      | error e => simp [hlex, hread, Except.toOption] at htexts
      | ok program =>
        refine ⟨tokens, program, rfl, hread, ?_⟩
        simp only [hlex, hread, Except.toOption, Option.bind_some, Option.map_some,
          Option.some.injEq] at htexts
        rw [(hparse _ _ _ hlex hread).2, htexts]
        decide

end Lox
