import Lox.Text.Position

/-!
# Lines and columns

* `LineTable`: the offsets at which the lines of a text start; `LineTable.line` and
  `LineTable.lineColumn` look an offset up in it;
* `lineNumber`: the line of an offset, by a walk over the text;
* `LineTable.line_eq_countP`: the line that a table gives is the number of lines that have started.

Lines and columns count from 1, and columns count characters. An offset past the end counts
as the end; an offset inside a character has column 1.
-/

namespace Lox

/-- The byte offsets at which the lines of a text start, in order. -/
structure LineTable where
  starts : Array Nat

namespace LineTable

/-- Adds the starts of the lines that begin in a text that stands at `offset`. -/
def addStarts (starts : Array Nat) (offset : Nat) : List Char → Array Nat
  | [] => starts
  | c :: cs =>
    addStarts (if c = '\n' then starts.push (offset + 1) else starts) (offset + c.utf8Size) cs

/-- The table of a text: the first line starts at 0, every other after a newline. -/
def build (source : String) : LineTable := ⟨addStarts #[0] 0 source.toList⟩

/-- The number of lines. -/
def count (t : LineTable) : Nat := t.starts.size

/-- The place between `low` and `high` where an offset stands among starts in order, or else the
place where it would stand. -/
def search (starts : Array Nat) (offset low high : Nat) : Except Nat Nat :=
  if low < high then
    let middle := (low + high) / 2
    let start := starts.getD middle 0
    if start = offset then .ok middle
    else if start < offset then search starts offset (middle + 1) high
    else search starts offset low middle
  else .error low
termination_by high - low

/-- The line that holds an offset: the one that starts there, or the one before the place where
such a line would stand. -/
def line (t : LineTable) (offset : Nat) : Nat :=
  match search t.starts offset 0 t.starts.size with
  | .ok i => i + 1
  | .error i => i - 1 + 1

/-- The line and the column of an offset into `source`. -/
def lineColumn (t : LineTable) (source : String) (offset : Nat) : Nat × Nat :=
  let line := t.line offset
  let start := t.starts.getD (line - 1) 0
  let length := min offset source.utf8ByteSize - start
  let before := (dropBytes? start source.toList).bind (countBytes? length 0)
  (line, before.getD 0 + 1)

/-! ### Searching -/

section Search

variable {starts : Array Nat} {offset : Nat}

/-- In strict order, the starts up to an offset come first. -/
theorem getElem_le_iff (h : starts.toList.Pairwise (· < ·)) {i : Nat} (hi : i < starts.size) :
    starts[i] ≤ offset ↔ i < starts.countP (· ≤ offset) := by
  obtain ⟨starts⟩ := starts
  simp only [List.size_toArray] at hi
  simp only [List.getElem_toArray, List.countP_toArray]
  induction starts generalizing i with
  | nil => cases hi
  | cons start rest ih =>
    obtain ⟨hstart, hrest⟩ := List.pairwise_cons.1 h
    by_cases hle : start ≤ offset
    · rw [List.countP_cons_of_pos (by simpa using hle)]
      cases i with
      | zero => simp [hle]
      | succ i => simpa using ih hrest (Nat.lt_of_succ_lt_succ hi) (Nat.lt_of_succ_lt_succ hi)
    · -- all starts after one behind the offset are behind it
      have hnone : rest.countP (· ≤ offset) = 0 := by
        rw [List.countP_eq_zero]
        intro n hn
        have := hstart n hn
        simp only [decide_eq_true_eq]
        omega
      rw [List.countP_cons_of_neg (by simpa using hle), hnone]
      cases i with
      | zero => simp [hle]
      | succ i =>
        have := hstart _ (List.getElem_mem (Nat.lt_of_succ_lt_succ hi))
        simp only [List.getElem_cons_succ]
        omega

/-- A search leads to the last start up to the offset, if the offset is one, and behind it, if the
offset is none. -/
theorem search_eq (h : starts.toList.Pairwise (· < ·)) {low high : Nat} (hhigh : high ≤ starts.size)
    (hlow : low ≤ starts.countP (· ≤ offset)) (hcount : starts.countP (· ≤ offset) ≤ high) :
    (∃ i, search starts offset low high = .ok i ∧ starts.countP (· ≤ offset) = i + 1) ∨
      search starts offset low high = .error (starts.countP (· ≤ offset)) := by
  fun_induction search starts offset low high with
  | case1 low high hlt middle start heq =>
    have hmiddle : middle < starts.size := by omega
    refine .inl ⟨middle, rfl, ?_⟩
    have hstart : starts[middle] = offset := by
      simpa [start, Array.getD, hmiddle] using heq
    have hbefore : middle < starts.countP (· ≤ offset) :=
      (getElem_le_iff h hmiddle).1 (Nat.le_of_eq hstart)
    rcases Nat.lt_or_ge (middle + 1) starts.size with hnext | hnext
    · have hstrict : starts[middle] < starts[middle + 1] := by
        have := List.pairwise_iff_getElem.1 h middle (middle + 1) (by simpa) (by simpa) (by omega)
        simpa using this
      have hafter : ¬ middle + 1 < starts.countP (· ≤ offset) :=
        mt (getElem_le_iff h hnext).2 (by omega)
      omega
    · omega
  | case2 low high hlt middle start hne hstart ih =>
    have hmiddle : middle < starts.size := by omega
    have hstart : starts[middle] < offset := by
      simpa [start, Array.getD, hmiddle] using hstart
    have := (getElem_le_iff h hmiddle).1 (Nat.le_of_lt hstart)
    exact ih hhigh (by omega) hcount
  | case3 low high hlt middle start hne hstart ih =>
    have hmiddle : middle < starts.size := by omega
    have hstart : ¬ starts[middle] ≤ offset := by
      have hvalue : start = starts[middle] := by simp [start, hmiddle]
      omega
    have := mt (getElem_le_iff h hmiddle).2 hstart
    exact ih (by omega) hlow (by omega)
  | case4 low high hge =>
    rw [show starts.countP (· ≤ offset) = low by omega]
    exact .inr rfl

end Search

/-- The line of an offset is the number of lines that start up to it. -/
theorem line_eq_countP {t : LineTable} (h : t.starts.toList.Pairwise (· < ·)) {offset : Nat}
    (hpos : 0 < t.starts.countP (· ≤ offset)) : t.line offset = t.starts.countP (· ≤ offset) := by
  rw [line]
  rcases search_eq h (Nat.le_refl _) (Nat.zero_le _) Array.countP_le_size with
    ⟨i, hfound, hcount⟩ | hmissing
  · rw [hfound, hcount]
  · rw [hmissing]
    exact Nat.sub_add_cancel hpos

end LineTable

/-- The line of an offset into a text that stands at `p`. -/
def lineFrom (offset : Nat) (p : Position) : List Char → Nat
  | [] => p.line
  | c :: cs => if p.offset < offset then lineFrom offset (p.after c) cs else p.line

/-- The line of an offset: one more than the newlines before it. -/
def lineNumber (source : String) (offset : Nat) : Nat :=
  lineFrom offset .start source.toList

end Lox
