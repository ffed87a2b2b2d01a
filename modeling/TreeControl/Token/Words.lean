import TreeControl.Token.Source
import TreeControl.Token.Whitespace

/-! # Words of a text

A text as a token source: the tokens are its maximal runs of characters that are not white
space.  The place of a word is that of its first character, and the place of the end is that
just behind the last character.  Only a line feed ends a line, and columns count characters.

A position in a text is an offset in bytes that falls between two characters (`String.Pos`), so
whatever is cut out of a text is made of whole characters. -/

namespace TreeControl

/-- A text that is being split into words. -/
structure Words (text : String) where
  /-- Where the text goes on. -/
  offset : text.Pos := text.startPos
  /-- The number of the line in which the text goes on. -/
  line : Nat := 1
  /-- Where that line begins. -/
  lineStart : text.Pos := text.startPos
  /-- The place of the word read last. -/
  latest : Location := {}
  deriving DecidableEq

namespace Words

variable {text : String}

/-- A text from its beginning. -/
def ofText (text : String) : Words text := {}

/-- Passes one character; behind a line feed the next line begins. -/
def pass (w : Words text) (h : w.offset ≠ text.endPos) : Words text :=
  let behind := w.offset.next h
  if w.offset.get h = '\n' then { w with offset := behind, line := w.line + 1, lineStart := behind }
  else { w with offset := behind }

@[simp] theorem offset_pass (w : Words text) (h : w.offset ≠ text.endPos) :
    (w.pass h).offset = w.offset.next h := by
  unfold pass
  split <;> rfl

/-- Passes white space, up to the first character of a word or to the end of the text. -/
def skip (w : Words text) : Words text :=
  if h : w.offset = text.endPos then w
  else if isWhitespace (w.offset.get h) then (w.pass h).skip
  else w
  termination_by w.offset
  decreasing_by simp

/-- The end of the word that begins at a position. -/
def wordEnd (p : text.Pos) : text.Pos :=
  if h : p = text.endPos then p
  else if isWhitespace (p.get h) then p
  else wordEnd (p.next h)
  termination_by p

/-- The place of the next character: its line, and how many characters of the line stand in front
of it. -/
def here (w : Words text) : Location := ⟨w.line, (text.extract w.lineStart w.offset).length + 1⟩

/-- The word at the front of the unread text, behind white space, and the text after it.  At the
end of the text the word is blank. -/
def next (w : Words text) : Symbol × Words text :=
  let start := w.skip
  let stop := wordEnd start.offset
  (⟨text.extract start.offset stop⟩, { start with offset := stop, latest := start.here })

instance : TokenSource (Words text) where
  next := next
  location := latest

end Words

end TreeControl
