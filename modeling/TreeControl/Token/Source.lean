import TreeControl.Symbol

/-! # Token sources

A token source hands out symbols one by one and says where the latest one was read.  The blank
symbol stands for the end of the input. -/

namespace TreeControl

/-- A place in the input. -/
structure Location where
  /-- The line, counted from 1; 0 when unknown. -/
  line : Nat := 0
  /-- The column, counted from 1; for input that is no text, the number of the token. -/
  column : Nat := 0
  deriving DecidableEq, Repr, Inhabited

/-- Line and column with a colon between them. -/
def Location.text (l : Location) : String := s!"{l.line}:{l.column}"

theorem not_mem_toDigits {c : Char} (hc : c.isDigit = false) (n : Nat) :
    c ∉ Nat.toDigits 10 n := by
  intro h
  have hdigit := Nat.isDigit_of_mem_toDigits (by decide) (by decide) h
  rw [hc] at hdigit
  cases hdigit

/-- A place is written with digits and a colon. -/
theorem Location.not_mem_text {c : Char} (hc : c.isDigit = false) (hcolon : c ≠ ':')
    (l : Location) : c ∉ l.text.toList := by
  simp [Location.text, toString, not_mem_toDigits hc, hcolon]

/-- What hands out tokens: `next` gives a token and the source after it, `location` the place
of the token given last.  A source that knows no places leaves it at `0:0`. -/
class TokenSource (σ : Type) where
  next : σ → Symbol × σ
  location : σ → Location := fun _ => {}

namespace TokenSource

variable {σ : Type} [TokenSource σ]

/-- The token that a source hands out after `n` others. -/
def tokenAt (source : σ) : Nat → Symbol
  | 0 => (next source).1
  | n + 1 => tokenAt (next source).2 n

/-- The place of that token. -/
def placeAt (source : σ) : Nat → Location
  | 0 => location (next source).2
  | n + 1 => placeAt (next source).2 n

end TokenSource

/-! ### Listed tokens -/

/-- Tokens from a list, then blank symbols for ever. -/
structure ListedTokens where
  /-- The tokens not yet handed out. -/
  pending : List Symbol
  /-- How many tokens were asked for. -/
  asked : Nat := 0
  deriving DecidableEq, Repr

/-- The place of a listed token is its number in line 1. -/
instance : TokenSource ListedTokens where
  next s := (s.pending.headD .blank, ⟨s.pending.tail, s.asked + 1⟩)
  location s := ⟨1, s.asked⟩

/-! ### Tokens without places -/

/-- A source whose places are withheld. -/
structure Unlocated (σ : Type) where
  source : σ

instance {σ : Type} [TokenSource σ] : TokenSource (Unlocated σ) where
  next s := ((TokenSource.next s.source).1, ⟨(TokenSource.next s.source).2⟩)

end TreeControl
