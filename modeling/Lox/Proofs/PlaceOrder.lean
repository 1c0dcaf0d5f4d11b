import Lox.Proofs.LineAgreement
import Mathlib.Data.Prod.Lex
import Mathlib.Order.Monotone.Defs

/-!
# The order of places

From one boundary of a source to a later one, the line grows, or it stays and the column grows. So
the line and the column of a boundary tell which one it is.

* `placeAfter_concat`: the place after one more character;
* `placeAfter_lt`: a longer text ends at a later place;
* `lineColumn_strictMonoOn`: the places of a source, in lexicographic order;
* `lineNumber_past_end`: the line of the offsets behind the end;
* `places_in_order`.
-/

namespace Lox

/-! ### Texts -/

/-- A newline starts a new line, and every other character takes a column. -/
theorem placeAfter_concat (before : List Char) (c : Char) :
    placeAfter (before ++ [c]) =
      if c = '\n' then ((placeAfter before).1 + 1, 1)
      else ((placeAfter before).1, (placeAfter before).2 + 1) := by
  by_cases hc : c = '\n'
  · simp [placeAfter, hc]
  · simp [placeAfter, hc]

theorem placeAfter_lt_concat (before : List Char) (c : Char) :
    toLex (placeAfter before) < toLex (placeAfter (before ++ [c])) := by
  rw [Prod.Lex.toLex_lt_toLex, placeAfter_concat]
  split
  · exact .inl (Nat.lt_succ_self _)
  · exact .inr ⟨rfl, Nat.lt_succ_self _⟩

/-- A longer text ends at a later place. -/
theorem placeAfter_lt (before : List Char) {text : List Char} (h : text ≠ []) :
    toLex (placeAfter before) < toLex (placeAfter (before ++ text)) := by
  induction text generalizing before with
  | nil => exact absurd rfl h
  | cons c text ih =>
    have hfirst := placeAfter_lt_concat before c
    by_cases htext : text = []
    · rwa [htext]
    · rw [List.append_cons]
      exact hfirst.trans (ih _ htext)

/-! ### Offsets -/

/-- Of two boundaries, the later one has more text before it. -/
theorem exists_text_between {source : String} {offset offset' : Nat} (h : Boundary source offset)
    (h' : Boundary source offset') (hlt : offset < offset') :
    ∃ before text after, source.toList = before ++ text ++ after ∧ text ≠ [] ∧
      utf8Length before = offset ∧ utf8Length (before ++ text) = offset' := by
  have hwithin : (Span.mk offset offset').Within source :=
    Span.within_iff.2 ⟨Nat.le_of_lt hlt, h, h'⟩
  obtain ⟨text, before, after, hsource, hbefore, htext⟩ := hwithin
  refine ⟨before.toList, text.toList, after.toList, by simp [hsource], ?_, ?_, ?_⟩
  · intro hnil
    rw [String.utf8ByteSize_append, hbefore, ← utf8Length_toList text, hnil] at htext
    exact absurd htext (Nat.ne_of_lt hlt)
  · rw [utf8Length_toList, hbefore]
  · rw [← String.toList_append, utf8Length_toList, htext]

/-- From boundary to boundary, places grow in lexicographic order. -/
theorem lineColumn_strictMonoOn (source : String) :
    StrictMonoOn (fun offset => toLex ((LineTable.build source).lineColumn source offset))
      {offset | Boundary source offset} := by
  intro offset h offset' h' hlt
  obtain ⟨before, text, after, hsource, htext, rfl, rfl⟩ := exists_text_between h h' hlt
  have hbefore : source.toList = before ++ (text ++ after) := by rw [hsource, List.append_assoc]
  dsimp only
  rw [lineColumn_eq hbefore, lineColumn_eq hsource]
  exact placeAfter_lt before htext

/-- All offsets from the end of a source on have its last line. -/
theorem lineNumber_past_end {source : String} {offset : Nat} (h : source.utf8ByteSize ≤ offset) :
    lineNumber source offset = (LineTable.build source).count := by
  have hlength : source.toUTF8.data.toList.length = source.utf8ByteSize := rfl
  have hend : newlinesBefore source offset = newlinesBefore source source.utf8ByteSize := by
    rw [newlinesBefore, newlinesBefore, List.take_of_length_le (hlength.trans_le h),
      List.take_of_length_le hlength.le]
  have hlast := LineTable.line_eq (List.append_nil source.toList).symm
  rw [utf8Length_toList, line_eq_newlinesBefore] at hlast
  rw [lineNumber_eq_newlinesBefore, hend, hlast, LineTable.build_eq, LineTable.count]
  simp [length_lineStarts]

/-! ### The theorem -/

/-- **Offsets and places.** For every source:

* at every offset, its table and a walk over it give the same line, which is the last one from the
  end on;
* at a boundary, the table gives one more than the newlines before it, and one more than the
  characters since the last of these;
* from boundary to boundary these places grow in lexicographic order, so that no two boundaries have
  the same place. -/
theorem places_in_order (source : String) :
    (∀ offset, (LineTable.build source).line offset = lineNumber source offset ∧
      (source.utf8ByteSize ≤ offset →
        lineNumber source offset = (LineTable.build source).count)) ∧
    (∀ before after, source = before ++ after →
      (LineTable.build source).lineColumn source before.utf8ByteSize =
        placeAfter before.toList) ∧
    StrictMonoOn (fun offset => toLex ((LineTable.build source).lineColumn source offset))
      {offset | Boundary source offset} ∧
    Set.InjOn ((LineTable.build source).lineColumn source) {offset | Boundary source offset} := by
  have hmono := lineColumn_strictMonoOn source
  refine ⟨fun offset => ⟨?_, lineNumber_past_end⟩, fun before after h => ?_, hmono, ?_⟩
  · rw [line_eq_newlinesBefore, lineNumber_eq_newlinesBefore]
  · have hsource : source.toList = before.toList ++ after.toList := by
      rw [h, String.toList_append]
    rw [← utf8Length_toList, lineColumn_eq hsource]
  · exact fun offset h offset' h' heq => hmono.injOn h h' (congrArg toLex heq)

/-- Two lines, the second of which starts with a character of two bytes. -/
def accentSource : String := "abc\néx = 1"

/-- The name behind the character of two bytes is in the second column. -/
theorem places_in_order_accentSource :
    (accentSource.utf8ByteSize ≤ 99 ∧ (LineTable.build accentSource).line 99 = 2) ∧
      (accentSource = "abc\né" ++ "x = 1" ∧
        (LineTable.build accentSource).lineColumn accentSource 6 = (2, 2)) ∧
      Boundary accentSource 4 ∧ Boundary accentSource 6 ∧
      toLex ((LineTable.build accentSource).lineColumn accentSource 4) < toLex (2, 2) := by
  obtain ⟨hlines, hplaces, hmono, -⟩ := places_in_order accentSource
  have hend : accentSource.utf8ByteSize ≤ 99 := by decide +kernel
  have hcount : (LineTable.build accentSource).count = 2 := by decide +kernel
  have hsource : accentSource = "abc\né" ++ "x = 1" := by decide +kernel
  have hname : (LineTable.build accentSource).lineColumn accentSource 6 = (2, 2) :=
    hplaces "abc\né" "x = 1" hsource
  have hstart : Boundary accentSource 4 := ⟨"abc\n", "éx = 1", by decide +kernel, rfl⟩
  have hbehind : Boundary accentSource 6 := ⟨"abc\né", "x = 1", hsource, rfl⟩
  obtain ⟨hline, hlast⟩ := hlines 99
  refine ⟨⟨hend, ?_⟩, ⟨hsource, hname⟩, hstart, hbehind, ?_⟩
  · rw [hline, hlast hend, hcount]
  · have hlt := hmono hstart hbehind (by decide)
    dsimp only at hlt
    rwa [hname] at hlt

end Lox
