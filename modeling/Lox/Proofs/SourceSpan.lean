import Lox.Text.Position
import Lox.Text.Span

/-!
# Spans of a source

* `Boundary`: an offset of a source between two characters, or at an end;
* `Span.Covers`: the text of a span of a source;
* `Span.Within`: a span that has a text in a source, and `Span.within_iff`: one that starts and
  stops at boundaries;
* `Within.merge`: the least span around two such spans is one;
* `Within.ofRange_eq`: if the source is not too long, such a span is that of its range of offsets.
-/

namespace Lox

/-- The bytes of a list of characters are those of its text. -/
theorem utf8ByteSize_ofList (cs : List Char) : (String.ofList cs).utf8ByteSize = utf8Length cs := by
  induction cs with
  | nil => rfl
  | cons c cs ih =>
    rw [String.ofList_cons, String.utf8ByteSize_append, String.utf8ByteSize_singleton, ih,
      utf8Length_cons]

theorem utf8Length_toList (s : String) : utf8Length s.toList = s.utf8ByteSize := by
  rw [← utf8ByteSize_ofList, String.ofList_toList]

theorem utf8Length_pos {cs : List Char} (h : cs ≠ []) : 0 < utf8Length cs := by
  obtain ⟨c, cs, rfl⟩ := List.exists_cons_of_ne_nil h
  have := c.utf8Size_pos
  rw [utf8Length_cons]
  omega

/-- An offset of a source at which no character is cut. -/
def Boundary (source : String) (offset : Nat) : Prop :=
  ∃ before after, source = before ++ after ∧ before.utf8ByteSize = offset

namespace Span

/-- The bytes of a span of a source are a text. -/
def Covers (span : Span) (source text : String) : Prop :=
  ∃ before after, source = before ++ text ++ after ∧ before.utf8ByteSize = span.start ∧
    (before ++ text).utf8ByteSize = span.stop

/-- A span of a source that starts and stops between characters. -/
def Within (span : Span) (source : String) : Prop := ∃ text, span.Covers source text

/-- A text that is found in the characters of a source. -/
theorem covers_of_toList {source : String} {before text after : List Char} {span : Span}
    (h : source.toList = before ++ text ++ after) (hstart : utf8Length before = span.start)
    (hstop : utf8Length (before ++ text) = span.stop) : span.Covers source (.ofList text) := by
  refine ⟨.ofList before, .ofList after, ?_, ?_, ?_⟩
  · rw [← String.ofList_append, ← String.ofList_append, ← h, String.ofList_toList]
  · rw [utf8ByteSize_ofList, hstart]
  · rw [← String.ofList_append, utf8ByteSize_ofList, hstop]

theorem Covers.bounds {span : Span} {source text : String} (h : span.Covers source text) :
    span.start ≤ span.stop ∧ span.stop ≤ source.utf8ByteSize := by
  obtain ⟨before, after, rfl, hstart, hstop⟩ := h
  rw [← hstart, ← hstop]
  simp only [String.utf8ByteSize_append]
  omega

/-- Between two boundaries there is a text. -/
theorem within_iff {span : Span} {source : String} :
    span.Within source ↔
      span.start ≤ span.stop ∧ Boundary source span.start ∧ Boundary source span.stop := by
  constructor
  · rintro ⟨text, h⟩
    refine ⟨h.bounds.1, ?_⟩
    obtain ⟨before, after, hsource, hstart, hstop⟩ := h
    exact ⟨⟨before, text ++ after, by rw [hsource, String.append_assoc], hstart⟩,
      before ++ text, after, hsource, hstop⟩
  · rintro ⟨hle, ⟨a, b, rfl, ha⟩, c, d, hsource, hc⟩
    have hlist : a.toList ++ b.toList = c.toList ++ d.toList := by
      simpa using congrArg String.toList hsource
    rw [← utf8Length_toList] at ha hc
    rcases List.append_eq_append_iff.1 hlist with ⟨text, hctext, hb⟩ | ⟨text, hatext, -⟩
    · have htext : (a ++ b).toList = a.toList ++ text ++ d.toList := by
        rw [String.toList_append, hb, List.append_assoc]
      exact ⟨_, covers_of_toList htext ha (by rw [← hctext, hc])⟩
    · have htext : (a ++ b).toList = a.toList ++ [] ++ b.toList := by simp
      refine ⟨_, covers_of_toList htext ha ?_⟩
      -- the first boundary is not behind the second one, so that they are the same
      rw [hatext, utf8Length_append] at ha
      rw [List.append_nil, hatext, utf8Length_append]
      omega

theorem Within.merge {s t : Span} {source : String} (hs : s.Within source)
    (ht : t.Within source) : (s.merge t).Within source := by
  rw [within_iff] at hs ht ⊢
  obtain ⟨hsle, hsstart, hsstop⟩ := hs
  obtain ⟨htle, htstart, htstop⟩ := ht
  refine ⟨?_, ?_, ?_⟩
  · simp only [Span.merge]
    omega
  · rcases Nat.le_total s.start t.start with h | h
    · rwa [Span.merge, Nat.min_eq_left h]
    · rwa [Span.merge, Nat.min_eq_right h]
  · rcases Nat.le_total s.stop t.stop with h | h
    · rwa [Span.merge, Nat.max_eq_right h]
    · rwa [Span.merge, Nat.max_eq_left h]

/-- A source with no more bytes than a span can count: no offset in it is cut. -/
theorem Within.ofRange_eq {span : Span} {source : String} (h : span.Within source)
    (hsize : source.utf8ByteSize ≤ maxOffset) : ofRange span.start span.stop = span := by
  obtain ⟨text, h⟩ := h
  obtain ⟨hle, hstop⟩ := h.bounds
  rw [ofRange, Nat.min_eq_left (by omega), Nat.min_eq_left (by omega)]

theorem Within.point {source : String} {offset : Nat} (h : Boundary source offset) :
    (point offset).Within source :=
  within_iff.2 ⟨Nat.le_refl _, h, h⟩

end Span

end Lox
