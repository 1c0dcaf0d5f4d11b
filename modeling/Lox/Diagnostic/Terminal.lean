import Lox.Diagnostic
import Lox.Text.Lines

/-!
# Diagnostics on a terminal

* `ColorMode`: when to use colours;
* `Style`, `Piece`: a text is written in pieces, some of them in a style;
* `Diagnostic.pieces`, `Diagnostic.report`: the lines of a diagnostic, with places as
  `line:column` in a source;
* `reportAll`: the lines of several diagnostics.
-/

namespace Lox

/-- When to use colours. -/
inductive ColorMode
  | auto
  | always
  | never
  deriving DecidableEq, Repr

/-- Whether to use colours on an output that may be a terminal, unless the user asked for none. -/
def ColorMode.isOn (mode : ColorMode) (isTerminal noColor : Bool) : Bool :=
  match mode with
  | auto => isTerminal && !noColor
  | always => true
  | never => false

/-- How a piece of text is set off. -/
inductive Style
  | plain
  | alarm
  | bold
  deriving DecidableEq, Repr

/-- The sequence that starts a style. -/
def Style.start : Style → String
  | plain => ""
  | alarm => "\x1b[1;31m"
  | bold => "\x1b[1m"

/-- The sequence that ends a style. -/
def Style.reset : String := "\x1b[0m"

/-- A text in a style. -/
structure Styled where
  style : Style
  text : String
  deriving DecidableEq, Repr

/-- The text of a piece, with the sequences of its style if colours are on. -/
def Styled.render (colors : Bool) (p : Styled) : String :=
  if colors && p.style != .plain then p.style.start ++ p.text ++ Style.reset else p.text

/-- The place of a span: line and column in a source, or the span itself without one. -/
def renderPlace (source : Option String) (span : Span) : String :=
  match source with
  | some text =>
    let (line, column) := (LineTable.build text).lineColumn text span.start
    s!"{line}:{column}"
  | none => span.render

namespace Diagnostic

/-- The pieces of the line of a label. -/
def labelPieces (source : Option String) (l : Label) : List Styled :=
  [⟨.plain, s!"  --> {renderPlace source l.span}: "⟩, ⟨.alarm, l.message⟩, ⟨.plain, "\n"⟩]

/-- The pieces of the line of a note. -/
def notePieces (note : String) : List Styled :=
  [⟨.plain, "  = "⟩, ⟨.bold, "note"⟩, ⟨.plain, s!": {note}\n"⟩]

/-- The pieces of a diagnostic: a line for the error, one for each label and one for each note. -/
def pieces (source : Option String) (d : Diagnostic) : List Styled :=
  [⟨.alarm, "error"⟩, ⟨.bold, s!"[{d.code.text}]"⟩, ⟨.plain, s!": {d.message}\n"⟩] ++
    d.labels.flatMap (labelPieces source) ++ d.notes.flatMap notePieces

/-- The lines of a diagnostic. -/
def report (colors : Bool) (source : Option String) (d : Diagnostic) : String :=
  String.join ((d.pieces source).map (·.render colors))

end Diagnostic

/-- The lines of several diagnostics. -/
def reportAll (colors : Bool) (source : Option String) (ds : List Diagnostic) : String :=
  String.join (ds.map (·.report colors source))

end Lox
