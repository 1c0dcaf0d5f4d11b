import Lox.Proofs.Munch
import Lox.Proofs.SourceSpan
import Lox.Text.Lines

/-!
# Lines and columns of boundaries

Between two characters, a line table gives the line and the column that are counted in the text
before.

* `placeAfter`: the line and the column after a text;
* `lineStarts`: the starts of lines, and `LineTable.build_eq`;
* `lineColumn_eq`.
-/

namespace Lox

/-- The line and the column after a text, which count from 1: the newlines of the text, and the
characters since the last of them. -/
def placeAfter (before : List Char) : Nat × Nat :=
  (before.count '\n' + 1, (before.reverse.takeWhile (· != '\n')).length + 1)

/-- The offsets behind the newlines of a text that stands at an offset. -/
def lineStarts (offset : Nat) : List Char → List Nat
  | [] => []
  | c :: cs =>
    if c = '\n' then (offset + 1) :: lineStarts (offset + c.utf8Size) cs
    else lineStarts (offset + c.utf8Size) cs

theorem length_lineStarts (offset : Nat) (cs : List Char) :
    (lineStarts offset cs).length = cs.count '\n' := by
  induction cs generalizing offset with
  | nil => rfl
  | cons c cs ih =>
    rw [lineStarts, List.count_cons]
    by_cases hc : c = '\n'
    · simp [hc, ih]
    · simp [hc, ih]

theorem lineStarts_append (offset : Nat) (cs ds : List Char) :
    lineStarts offset (cs ++ ds) =
      lineStarts offset cs ++ lineStarts (offset + utf8Length cs) ds := by
  induction cs generalizing offset with
  | nil => rfl
  | cons c cs ih =>
    rw [List.cons_append, lineStarts, lineStarts, ih, utf8Length_cons, Nat.add_assoc]
    split <;> rfl

theorem bounds_of_mem_lineStarts {offset n : Nat} {cs : List Char} (h : n ∈ lineStarts offset cs) :
    offset < n ∧ n ≤ offset + utf8Length cs := by
  induction cs generalizing offset with
  | nil => cases h
  | cons c cs ih =>
    have hpos := c.utf8Size_pos
    rw [utf8Length_cons]
    rw [lineStarts] at h
    split at h
    · rcases List.mem_cons.1 h with rfl | h
      · omega
      · have := ih h
        omega
    · have := ih h
      omega

/-- The lines of a text before the one that it ends in, which is not the last one if the text ends
with a newline. -/
theorem exists_lastLine (before : List Char) : ∃ lines column, before = lines ++ column ∧
    '\n' ∉ column ∧ (lines = [] ∨ ∃ cs, lines = cs ++ ['\n']) ∧
      (placeAfter before).2 = column.length + 1 := by
  obtain ⟨column, lines, hbefore, hcolumn, hstop⟩ := exists_run (· != '\n') before.reverse
  have hreverse : before = lines.reverse ++ column.reverse := by
    rw [← List.reverse_append, ← hbefore, List.reverse_reverse]
  refine ⟨lines.reverse, column.reverse, hreverse, ?_, ?_, ?_⟩
  · intro hmem
    simpa using hcolumn '\n' (List.mem_reverse.1 hmem)
  · rcases lines with _ | ⟨c, lines⟩
    · exact .inl rfl
    · have hc : c = '\n' := by simpa using hstop c rfl
      exact .inr ⟨lines.reverse, by rw [List.reverse_cons, hc]⟩
  · rw [placeAfter, hbefore, takeWhile_append_stop hcolumn hstop, List.length_reverse]

namespace LineTable

theorem addStarts_eq (starts : Array Nat) (offset : Nat) (cs : List Char) :
    addStarts starts offset cs = starts ++ (lineStarts offset cs).toArray := by
  induction cs generalizing starts offset with
  | nil => simp [addStarts, lineStarts]
  | cons c cs ih =>
    rw [addStarts, lineStarts, ih]
    by_cases hc : c = '\n'
    · simp [hc]
    · simp [hc]

theorem build_eq (source : String) :
    build source = ⟨(0 :: lineStarts 0 source.toList).toArray⟩ := by
  rw [build, addStarts_eq]
  simp

theorem pairwise_lineStarts (offset : Nat) (cs : List Char) :
    (lineStarts offset cs).Pairwise (· < ·) := by
  induction cs generalizing offset with
  | nil => exact .nil
  | cons c cs ih =>
    rw [lineStarts]
    split
    · next hc =>
      have hsize : c.utf8Size = 1 := by rw [hc]; rfl
      refine .cons (fun n hn => ?_) (ih _)
      have := bounds_of_mem_lineStarts hn
      omega
    · exact ih _

/-- The line of an offset is the number of lines that start up to it. -/
theorem line_build (source : String) (offset : Nat) :
    (build source).line offset = (0 :: lineStarts 0 source.toList).countP (· ≤ offset) := by
  have hsorted : (0 :: lineStarts 0 source.toList).Pairwise (· < ·) :=
    .cons (fun n hn => (bounds_of_mem_lineStarts hn).1) (pairwise_lineStarts 0 source.toList)
  rw [build_eq, line_eq_countP hsorted]
  · simp
  · simp

/-- The line of a boundary is one more than the newlines before it. -/
theorem line_eq {source : String} {before after : List Char} (h : source.toList = before ++ after) :
    (build source).line (utf8Length before) = before.count '\n' + 1 := by
  have hbefore : (lineStarts 0 before).countP (· ≤ utf8Length before) = before.count '\n' := by
    rw [List.countP_eq_length.2, length_lineStarts]
    intro n hn
    have := bounds_of_mem_lineStarts hn
    simpa using this.2
  have hafter : (lineStarts (utf8Length before) after).countP (· ≤ utf8Length before) = 0 := by
    rw [List.countP_eq_zero]
    intro n hn
    have := bounds_of_mem_lineStarts hn
    simpa using this.1
  rw [line_build, h, lineStarts_append, Nat.zero_add]
  simp [hbefore, hafter]

/-- The line that a boundary is on starts behind the lines before it. -/
theorem start_eq {source : String} {lines column after : List Char}
    (h : source.toList = lines ++ column ++ after) (hcolumn : '\n' ∉ column)
    (hlines : lines = [] ∨ ∃ cs, lines = cs ++ ['\n']) :
    (build source).starts.getD ((lines ++ column).count '\n') 0 = utf8Length lines := by
  have hcount : (lines ++ column).count '\n' = lines.count '\n' := by
    rw [List.count_append, List.count_eq_zero.2 hcolumn, Nat.add_zero]
  rw [build_eq, hcount, h, List.append_assoc, lineStarts_append]
  rcases hlines with rfl | ⟨cs, rfl⟩
  · rfl
  · -- the newline that ends the lines before is the last one before the boundary
    have hlast : lineStarts 0 (cs ++ ['\n']) = lineStarts 0 cs ++ [utf8Length cs + 1] := by
      rw [lineStarts_append, Nat.zero_add]
      rfl
    have hindex : (cs ++ ['\n']).count '\n' = (lineStarts 0 cs).length + 1 := by
      rw [List.count_append, length_lineStarts]
      rfl
    have hsize : '\n'.utf8Size = 1 := rfl
    rw [hlast, hindex, Array.getD_eq_getD_getElem?]
    simp [hsize]

end LineTable

/-- The line and the column of a boundary are those after the text before it. -/
theorem lineColumn_eq {source : String} {before after : List Char}
    (h : source.toList = before ++ after) :
    (LineTable.build source).lineColumn source (utf8Length before) = placeAfter before := by
  obtain ⟨lines, column, rfl, hcolumn, hlines, hplace⟩ := exists_lastLine before
  have hsize : utf8Length (lines ++ column) ≤ source.utf8ByteSize := by
    rw [← utf8Length_toList, h, utf8Length_append (lines ++ column)]
    omega
  have hlength : min (utf8Length (lines ++ column)) source.utf8ByteSize - utf8Length lines =
      utf8Length column := by
    rw [Nat.min_eq_left hsize, utf8Length_append]
    omega
  have hdrop : dropBytes? (utf8Length lines) source.toList = some (column ++ after) := by
    rw [h, List.append_assoc, dropBytes?_utf8Length]
  rw [LineTable.lineColumn, LineTable.line_eq h]
  rw [Nat.add_sub_cancel, LineTable.start_eq h hcolumn hlines, hlength, hdrop, Option.bind_some,
    countBytes?_eq, takeBytes?_utf8Length]
  refine Prod.ext rfl ?_
  rw [hplace]
  simp

end Lox
