/-! # Positions

A position is a line and a column, both counted from one. Columns count runes
(Unicode code points). The position `0:0` stands for "nowhere": it is what an
empty node reports, and it is left out of messages.
-/

namespace SoliditySource

/-- The place of a rune in a source. Lines and columns count runes of the source, of which
there are never more than a machine word can count, so that no overflow is left out. -/
structure Position where
  line : Nat
  column : Nat
  deriving DecidableEq, Repr

namespace Position

def unknown : Position := ⟨0, 0⟩

instance : Inhabited Position := ⟨unknown⟩

def start : Position := ⟨1, 1⟩

def isKnown (p : Position) : Bool := 0 < p.line && 0 < p.column

/-- The position right after the rune `c` standing at `p`. -/
def after (p : Position) (c : Char) : Position :=
  if c = '\n' then ⟨p.line + 1, 1⟩ else ⟨p.line, p.column + 1⟩

def advance (p : Position) (text : List Char) : Position := text.foldl after p

/-- The position of the last rune of a text standing at `p`; `p` itself when the
text is empty. -/
def lastRune (p : Position) : List Char → Position
  | c :: d :: rest => (p.after c).lastRune (d :: rest)
  | _ => p

/-- Reading order: earlier line first, then earlier column. -/
instance : Ord Position :=
  ⟨fun p q => (compare p.line q.line).then (compare p.column q.column)⟩

instance : LT Position :=
  ⟨fun p q => p.line < q.line ∨ (p.line = q.line ∧ p.column < q.column)⟩

instance : LE Position :=
  ⟨fun p q => p.line < q.line ∨ (p.line = q.line ∧ p.column ≤ q.column)⟩

instance (p q : Position) : Decidable (p < q) :=
  inferInstanceAs (Decidable (p.line < q.line ∨ (p.line = q.line ∧ p.column < q.column)))

instance (p q : Position) : Decidable (p ≤ q) :=
  inferInstanceAs (Decidable (p.line < q.line ∨ (p.line = q.line ∧ p.column ≤ q.column)))

instance : Max Position := ⟨fun p q => if p ≤ q then q else p⟩

/-- The text of a position: `line:column`, or a dash for one that is not known. -/
def render (p : Position) : String :=
  if p.isKnown then toString p.line ++ ":" ++ toString p.column else "-"

/-- A message about `p`: the position stands before the text unless it is not
known. -/
def annotate (p : Position) (message : String) : String :=
  if p.isKnown then p.render ++ ": " ++ message else message

/-! ## Laws of `advance` -/

@[simp] theorem advance_nil (p : Position) : p.advance [] = p := rfl

@[simp] theorem advance_cons (p : Position) (c : Char) (text : List Char) :
    p.advance (c :: text) = (p.after c).advance text := rfl

theorem advance_append (p : Position) (front back : List Char) :
    p.advance (front ++ back) = (p.advance front).advance back := by
  simp [advance, List.foldl_append]

theorem lastRune_eq_advance (p : Position) (text : List Char) :
    p.lastRune text = p.advance text.dropLast := by
  induction text generalizing p with
  | nil => rfl
  | cons c rest ih =>
      cases rest with
      | nil => rfl
      | cons d rest => rw [lastRune, ih, List.dropLast_cons_cons, advance_cons]

end Position

/-- The places of the first and of the last rune of something. -/
structure Span where
  first : Position
  last : Position
  deriving DecidableEq, Repr

namespace Span

def unknown : Span := ⟨.unknown, .unknown⟩

instance : Inhabited Span := ⟨unknown⟩

/-- The span of a run of parts in source order: from the start of the first part
to the end of the last one. -/
def cover (parts : List Span) : Span :=
  match parts.head?, parts.getLast? with
  | some a, some b => ⟨a.first, b.last⟩
  | _, _ => unknown

end Span

end SoliditySource
