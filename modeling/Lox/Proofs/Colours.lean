import Lox.Diagnostic.Terminal

/-!
# Colours only add escape sequences

A report with colours is the report without them, and sequences around some pieces of it that start
and end a style. Where these are deleted, the other report is left, whatever is written in it.

* `Escape`: the sequences, with `Escape.text`;
* `scan`: a text as the sequences in it and the characters outside of them;
* `escapes`, `withoutEscapes`: the sequences that a scan finds, and what is left without them;
* `Paired`: sequences that start a style, each followed by one that ends it;
* `scan_written`: what a scan finds in pieces that are written with colours;
* `colours_only_add_escapes`.
-/

namespace Lox

/-! ### Escape sequences -/

/-- The sequences that start a style or end it. -/
inductive Escape
  | alarm
  | bold
  | reset
  deriving DecidableEq, Repr

/-- The character that every sequence starts with. -/
def escapeChar : Char := '\x1b'

/-- A text in which no sequence can start. -/
def EscapeFree (text : String) : Prop := escapeChar ∉ text.toList

instance (text : String) : Decidable (EscapeFree text) := inferInstanceAs (Decidable (_ ∉ _))

namespace Escape

/-- The text of a sequence. -/
def text : Escape → String
  | alarm => Style.alarm.start
  | bold => Style.bold.start
  | reset => Style.reset

/-- Every sequence. -/
def all : List Escape := [alarm, bold, reset]

/-- The sequence that characters start with. -/
def startOf? (cs : List Char) : Option Escape := all.find? fun e => e.text.toList.isPrefixOf cs

theorem exists_text (e : Escape) : ∃ cs, e.text.toList = escapeChar :: cs := by
  cases e <;> exact ⟨_, rfl⟩

theorem startOf?_of_ne {c : Char} (h : c ≠ escapeChar) (cs : List Char) :
    startOf? (c :: cs) = none := by
  rw [startOf?, List.find?_eq_none]
  intro e _
  obtain ⟨ds, hds⟩ := e.exists_text
  simp [hds, h.symm]

end Escape

/-- The sequences in a text and the characters outside of them, from left to right, behind the
first `n` characters. -/
def scanFrom : Nat → List Char → List (Escape ⊕ Char)
  | _, [] => []
  | n + 1, _ :: cs => scanFrom n cs
  | 0, c :: cs =>
    match Escape.startOf? (c :: cs) with
    | some e => .inl e :: scanFrom (e.text.length - 1) cs
    | none => .inr c :: scanFrom 0 cs

/-- A text as the sequences in it and the characters outside of them. -/
def scan (cs : List Char) : List (Escape ⊕ Char) := scanFrom 0 cs

/-- The sequences that occur in a text, in order. -/
def escapes (text : String) : List Escape := (scan text.toList).filterMap Sum.getLeft?

/-- A text from which every sequence is deleted. -/
def withoutEscapes (text : String) : String := .ofList ((scan text.toList).filterMap Sum.getRight?)

theorem scan_escape (e : Escape) (cs : List Char) :
    scan (e.text.toList ++ cs) = .inl e :: scan cs := by
  cases e <;> rfl

/-- No sequence starts in a text without its first character, and none reaches into what follows. -/
theorem scan_append {cs : List Char} (h : escapeChar ∉ cs) (ds : List Char) :
    scan (cs ++ ds) = cs.map .inr ++ scan ds := by
  induction cs with
  | nil => rfl
  | cons c cs ih =>
    obtain ⟨hc, hcs⟩ := not_or.1 (mt List.mem_cons.2 h)
    rw [List.cons_append, scan, scanFrom, Escape.startOf?_of_ne (Ne.symm hc)]
    exact congrArg _ (ih hcs)

/-- Sequences that start a style, each of which is followed by the one that ends it. -/
inductive Paired : List Escape → Prop
  | nil : Paired []
  | cons {e : Escape} {es : List Escape} (starts : e ≠ .reset) (rest : Paired es) :
      Paired (e :: .reset :: es)

theorem Paired.append {es es' : List Escape} (h : Paired es) (h' : Paired es') :
    Paired (es ++ es') := by
  induction h with
  | nil => exact h'
  | cons starts _ ih => exact .cons starts ih

/-! ### Pieces -/

/-- The sequence that starts a style. -/
def Style.escape? : Style → Option Escape
  | plain => none
  | alarm => some .alarm
  | bold => some .bold

/-- The sequences around a piece. -/
def Styled.escapes (p : Styled) : List Escape := p.style.escape?.toList.flatMap ([·, .reset])

/-- Pieces one after the other. -/
def written (colors : Bool) (ps : List Styled) : String := .join (ps.map (·.render colors))

theorem paired_escapes (ps : List Styled) : Paired (ps.flatMap Styled.escapes) := by
  induction ps with
  | nil => exact .nil
  | cons p ps ih =>
    obtain ⟨style, text⟩ := p
    cases style with
    | plain => exact ih
    | alarm | bold => exact .cons nofun ih

/-- Without colours, the texts of pieces are written. -/
theorem toList_written_false (ps : List Styled) :
    (written false ps).toList = ps.flatMap (·.text.toList) := by
  induction ps with
  | nil => rfl
  | cons p ps ih =>
    rw [written] at ih ⊢
    rw [List.map_cons, String.join_cons, String.toList_append, ih]
    rfl

theorem escapeFree_written_false {ps : List Styled} (h : ∀ p ∈ ps, EscapeFree p.text) :
    EscapeFree (written false ps) := by
  intro hmem
  rw [toList_written_false] at hmem
  obtain ⟨p, hp, hmem⟩ := List.mem_flatMap.1 hmem
  exact h p hp hmem

/-- With colours, the characters of a piece stand between its sequences. -/
theorem scan_render {p : Styled} (h : EscapeFree p.text) (cs : List Char) :
    scan ((p.render true).toList ++ cs) =
      match p.style.escape? with
      | some e => .inl e :: p.text.toList.map .inr ++ .inl .reset :: scan cs
      | none => p.text.toList.map .inr ++ scan cs := by
  obtain ⟨style, text⟩ := p
  have set_off (e : Escape) : scan ((e.text ++ text ++ Escape.reset.text).toList ++ cs) =
      .inl e :: text.toList.map .inr ++ .inl .reset :: scan cs := by
    rw [String.toList_append, String.toList_append, List.append_assoc, List.append_assoc,
      scan_escape, scan_append h, scan_escape]
    rfl
  cases style with
  | plain => exact scan_append h cs
  | alarm => exact set_off .alarm
  | bold => exact set_off .bold

/-- A scan of pieces that are written with colours finds the sequences around them, and outside of
these the characters that are written without colours. -/
theorem scan_written {ps : List Styled} (h : ∀ p ∈ ps, EscapeFree p.text) :
    escapes (written true ps) = ps.flatMap Styled.escapes ∧
      withoutEscapes (written true ps) = written false ps := by
  suffices hscan : (scan (written true ps).toList).filterMap Sum.getLeft? =
      ps.flatMap Styled.escapes ∧
      (scan (written true ps).toList).filterMap Sum.getRight? = (written false ps).toList by
    exact ⟨hscan.1, String.toList_inj.1 (by rw [withoutEscapes, String.toList_ofList, hscan.2])⟩
  rw [toList_written_false]
  induction ps with
  | nil => exact ⟨rfl, rfl⟩
  | cons p ps ih =>
    obtain ⟨hp, hps⟩ := List.forall_mem_cons.1 h
    obtain ⟨hleft, hright⟩ := ih hps
    have hwritten : (written true (p :: ps)).toList =
        (p.render true).toList ++ (written true ps).toList := by
      rw [written, List.map_cons, String.join_cons, String.toList_append]
      rfl
    rw [hwritten, scan_render hp, List.flatMap_cons, List.flatMap_cons, Styled.escapes]
    cases p.style.escape? with
    | none => simp [List.filterMap_append, hleft, hright, Function.comp_def]
    | some e => simp [List.filterMap_append, List.filterMap_cons, hleft, hright, Function.comp_def]

/-! ### Reports -/

theorem reportAll_singleton (colors : Bool) (source : Option String) (d : Diagnostic) :
    reportAll colors source [d] = d.report colors source := by
  simp [reportAll]

theorem reportAll_eq_written (colors : Bool) (source : Option String) (ds : List Diagnostic) :
    reportAll colors source ds = written colors (ds.flatMap (·.pieces source)) := by
  induction ds with
  | nil => rfl
  | cons d ds ih =>
    rw [reportAll] at ih ⊢
    rw [List.map_cons, String.join_cons, ih, List.flatMap_cons, written, written, List.map_append,
      String.join_append, Diagnostic.report]

/-- A diagnostic in whose texts no sequence can start. -/
structure Diagnostic.EscapeFree (d : Diagnostic) : Prop where
  message : Lox.EscapeFree d.message
  labels : ∀ l ∈ d.labels, Lox.EscapeFree l.message
  notes : ∀ note ∈ d.notes, Lox.EscapeFree note

theorem escapeFree_append {s t : String} (hs : EscapeFree s) (ht : EscapeFree t) :
    EscapeFree (s ++ t) := by
  simpa [EscapeFree] using ⟨hs, ht⟩

theorem escapeFree_toString (n : Nat) : EscapeFree (toString n) := by
  intro h
  rw [Nat.toString_eq_ofList_toDigits, String.toList_ofList] at h
  exact absurd (Nat.isDigit_of_mem_toDigits (by decide) (by decide) h) (by decide)

theorem escapeFree_text (c : Code) : EscapeFree c.text := by
  cases c <;> decide

theorem escapeFree_renderPlace (source : Option String) (span : Span) :
    EscapeFree (renderPlace source span) := by
  have between (a b : Nat) (sign : String) (h : EscapeFree sign) :
      EscapeFree (toString a ++ sign ++ toString b) :=
    escapeFree_append (escapeFree_append (escapeFree_toString a) h) (escapeFree_toString b)
  cases source with
  | some text => exact between _ _ ":" (by decide)
  | none => exact between _ _ ".." (by decide)

theorem escapeFree_labelPieces (source : Option String) {l : Label} (h : EscapeFree l.message) :
    ∀ p ∈ Diagnostic.labelPieces source l, EscapeFree p.text := by
  rw [Diagnostic.labelPieces, List.forall_mem_cons, List.forall_mem_cons,
    List.forall_mem_singleton]
  have hplace := escapeFree_renderPlace source l.span
  exact ⟨escapeFree_append (escapeFree_append (by decide) hplace) (by decide), h, by decide⟩

theorem escapeFree_notePieces {note : String} (h : EscapeFree note) :
    ∀ p ∈ Diagnostic.notePieces note, EscapeFree p.text := by
  rw [Diagnostic.notePieces, List.forall_mem_cons, List.forall_mem_cons, List.forall_mem_singleton]
  exact ⟨by decide, by decide, escapeFree_append (escapeFree_append (by decide) h) (by decide)⟩

/-- No sequence can start in the pieces of a diagnostic either. -/
theorem Diagnostic.EscapeFree.pieces {d : Diagnostic} (h : d.EscapeFree) (source : Option String) :
    ∀ p ∈ d.pieces source, Lox.EscapeFree p.text := by
  rw [Diagnostic.pieces, List.forall_mem_append, List.forall_mem_append, List.forall_mem_flatMap,
    List.forall_mem_flatMap, List.forall_mem_cons, List.forall_mem_cons, List.forall_mem_singleton]
  refine ⟨⟨⟨by decide, ?_, ?_⟩, fun l hl => ?_⟩, fun note hnote => ?_⟩
  · exact escapeFree_append (escapeFree_append (by decide) (escapeFree_text _)) (by decide)
  · exact escapeFree_append (escapeFree_append (by decide) h.message) (by decide)
  · exact escapeFree_labelPieces source (h.labels l hl)
  · exact escapeFree_notePieces (h.notes note hnote)

/-- **Colours only add escape sequences.** Where no sequence can start in the messages, labels and
notes of diagnostics, none can start in their report without colours, for a source or none, and the
report with colours is the same text once every sequence is deleted from it. The sequences in it
start and end a style in turn, and after each diagnostic none is open. In every mode, the report of
diagnostics is that of each of them, one after the other. -/
theorem colours_only_add_escapes (isTerminal noColor : Bool) (source : Option String)
    (ds : List Diagnostic) (h : ∀ d ∈ ds, d.EscapeFree) :
    let emitted (mode : ColorMode) := reportAll (mode.isOn isTerminal noColor) source
    withoutEscapes (emitted .always ds) = emitted .never ds ∧
    EscapeFree (emitted .never ds) ∧
    (∀ ds', ds' <+: ds → Paired (escapes (emitted .always ds'))) ∧
    ∀ mode, emitted mode ds = .join (ds.map fun d => emitted mode [d]) := by
  intro emitted
  have pieces {ds' : List Diagnostic} (hle : ds' <+: ds) :
      ∀ p ∈ ds'.flatMap (·.pieces source), EscapeFree p.text := by
    rw [List.forall_mem_flatMap]
    exact fun d hd => (h d (hle.subset hd)).pieces source
  have scanned {ds' : List Diagnostic} (hle : ds' <+: ds) :
      escapes (emitted .always ds') = (ds'.flatMap (·.pieces source)).flatMap Styled.escapes ∧
        withoutEscapes (emitted .always ds') = emitted .never ds' := by
    simp only [emitted, ColorMode.isOn, reportAll_eq_written]
    exact scan_written (pieces hle)
  refine ⟨(scanned (List.prefix_refl ds)).2, ?_, fun ds' hle => ?_, fun mode => ?_⟩
  · simp only [emitted, ColorMode.isOn, reportAll_eq_written]
    exact escapeFree_written_false (pieces (List.prefix_refl ds))
  · rw [(scanned hle).1]
    exact paired_escapes _
  · simp only [emitted, reportAll_singleton]
    rfl

/-- An error with an empty label and one of two lines, and an error with notes only. -/
def sampleDiagnostics : List Diagnostic :=
  [⟨.typeMismatch, "né + 1", [⟨⟨6, 7⟩, ""⟩, ⟨⟨11, 12⟩, "a[1m\nb"⟩], ["TypeError"]⟩,
    ⟨.stackOverflow, "too deep", [], ["first", "[0m"]⟩]

/-- What only looks like the rest of a sequence is not deleted. -/
theorem colours_only_add_escapes_sample :
    let coloured := reportAll true (some "\"né\"\n+ \"é\"") sampleDiagnostics
    coloured = "\x1b[1;31merror\x1b[0m\x1b[1m[E6001]\x1b[0m: né + 1\n" ++
      "  --> 2:1: \x1b[1;31m\x1b[0m\n  --> 2:5: \x1b[1;31ma[1m\nb\x1b[0m\n" ++
      "  = \x1b[1mnote\x1b[0m: TypeError\n" ++
      "\x1b[1;31merror\x1b[0m\x1b[1m[E6012]\x1b[0m: too deep\n" ++
      "  = \x1b[1mnote\x1b[0m: first\n  = \x1b[1mnote\x1b[0m: [0m\n" ∧
    withoutEscapes coloured = "error[E6001]: né + 1\n  --> 2:1: \n  --> 2:5: a[1m\nb\n" ++
      "  = note: TypeError\nerror[E6012]: too deep\n  = note: first\n  = note: [0m\n" ∧
    Paired (escapes coloured) := by
  have hfree : ∀ d ∈ sampleDiagnostics, d.EscapeFree := by
    rw [sampleDiagnostics, List.forall_mem_cons, List.forall_mem_singleton]
    exact ⟨⟨by decide, by decide, by decide⟩, by decide, by decide, by decide⟩
  obtain ⟨hplain, -, hpaired, -⟩ :=
    colours_only_add_escapes false true (some "\"né\"\n+ \"é\"") sampleDiagnostics hfree
  refine ⟨by decide +kernel, hplain.trans (by decide +kernel), hpaired _ (List.prefix_refl _)⟩

end Lox
