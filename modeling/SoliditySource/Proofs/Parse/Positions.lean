import Mathlib.Data.List.DropRight
import Mathlib.Data.List.Induction
import SoliditySource.Proofs.Parse.Spans
import SoliditySource.Proofs.Reparse.Slice
import SoliditySource.Proofs.Token.Formed

/-! # Positions in numbers

The position behind a text is a matter of counting: newlines give the line, and the runes behind
the last of them give the column. A position is stepped from rune to rune, so this is proved from
the end of the text (`Position.advance_eq`). The spans of literals follow, since the last rune of
a token is no newline.
-/

namespace SoliditySource

namespace Runes

/-- The runes of a text behind its last newline. -/
def lastLine (text : List Char) : List Char := text.rtakeWhile (· ≠ '\n')

variable {text : List Char} {c : Char}

@[simp] theorem lastLine_concat_newline (text : List Char) : lastLine (text ++ ['\n']) = [] := by
  rw [lastLine, List.rtakeWhile_concat_neg _ _ _ (by simp)]

theorem lastLine_concat (h : c ≠ '\n') : lastLine (text ++ [c]) = lastLine text ++ [c] := by
  rw [lastLine, List.rtakeWhile_concat_pos _ _ _ (by simpa using h), lastLine]

end Runes

namespace Position

open Runes

theorem after_newline (p : Position) : p.after '\n' = ⟨p.line + 1, 1⟩ := if_pos rfl

theorem after_of_ne (p : Position) {c : Char} (h : c ≠ '\n') :
    p.after c = ⟨p.line, p.column + 1⟩ := if_neg h

/-- By induction from the end: a newline starts a line, and any other rune goes on with the last
one. -/
theorem advance_eq (p : Position) (text : List Char) :
    p.advance text = ⟨p.line + text.count '\n',
      if '\n' ∈ text then (lastLine text).length + 1 else p.column + text.length⟩ := by
  induction text using List.reverseRecOn with
  | nil => rfl
  | append_singleton text c ih =>
      rw [advance_append, advance_cons, advance_nil, ih]
      by_cases hc : c = '\n'
      · subst hc
        simp [after_newline, Nat.add_assoc]
      · rw [after_of_ne _ hc, lastLine_concat hc]
        have hcount : [c].count '\n' = 0 := List.count_eq_zero.mpr (by simpa using Ne.symm hc)
        have hmem : '\n' ∈ text ++ [c] ↔ '\n' ∈ text := by simp [Ne.symm hc]
        simp only [hmem, List.count_append, hcount, List.length_append, List.length_singleton]
        split <;> rfl

theorem lastRune_eq (p : Position) {text : List Char} (h : text ≠ []) :
    p.lastRune text = ⟨p.line + text.dropLast.count '\n',
      if '\n' ∈ text.dropLast then (lastLine text.dropLast).length + 1
      else p.column + text.length - 1⟩ := by
  have hlength : p.column + text.dropLast.length = p.column + text.length - 1 := by
    have hpos := List.length_pos_iff.mpr h
    rw [List.length_dropLast]
    omega
  rw [lastRune_eq_advance, advance_eq, hlength]

/-- A last rune that is no newline stands on the last line. -/
theorem lastRune_concat (p : Position) {text : List Char} {c : Char} (h : c ≠ '\n') :
    p.lastRune (text ++ [c]) = ⟨p.line + (text ++ [c]).count '\n',
      if '\n' ∈ text ++ [c] then (lastLine (text ++ [c])).length
      else p.column + (text ++ [c]).length - 1⟩ := by
  have hcount : [c].count '\n' = 0 := List.count_eq_zero.mpr (by simpa using Ne.symm h)
  have hmem : '\n' ∈ text ++ [c] ↔ '\n' ∈ text := by simp [Ne.symm h]
  rw [lastRune_eq p (by simp), List.dropLast_concat, lastLine_concat h]
  simp only [hmem, List.count_append, hcount, List.length_append, List.length_singleton,
    Nat.add_zero]

end Position

/-! ## Literals -/

theorem Recorded.of_mem {l : Leaf} {ls : List Leaf} {ts : List Token} (h : Recorded ls ts)
    (hl : l ∈ ls) : ∃ us, us <:+: ts ∧ l.Records us := by
  induction h with
  | nil => cases hl
  | @cons l' ls us ts h hs ih =>
      cases hl with
      | head => exact ⟨us, (List.prefix_append us ts).isInfix, h⟩
      | tail _ hl =>
          obtain ⟨vs, hvs, hrecords⟩ := ih hl
          exact ⟨vs, hvs.trans (List.suffix_append us ts).isInfix, hrecords⟩

/-- The span and the text of a string literal, if that is what is stored. -/
def Leaf.quoted? : Leaf → Option (Span × List Char)
  | literal l => some (l.span, l.value)
  | token t => if t.kind.isStringLiteral then some (t.span, t.text) else none
  | _ => none

/-- A string literal is stored with the span and the text of its token. -/
theorem Leaf.Records.quoted {l : Leaf} {us : List Token} (h : l.Records us) {span : Span}
    {value : List Char} (hl : (span, value) ∈ l.quoted?) :
    ∃ t ∈ us, span = t.span ∧ value = t.text := by
  cases l with
  | mark kind position => cases hl
  | token t =>
      rw [show us = [t] from h]
      simp only [quoted?, Option.mem_def, Option.ite_none_right_eq_some, Option.some.injEq,
        Prod.mk.injEq] at hl
      obtain ⟨-, rfl, rfl⟩ := hl
      exact ⟨t, List.mem_singleton_self t, rfl, rfl⟩
  | literal l =>
      obtain ⟨t, rfl, rfl⟩ := h
      cases hl
      exact ⟨t, List.mem_singleton_self t, rfl, rfl⟩
  | modifiers kept => cases hl

/-- The last rune of a token is no newline. -/
theorem Token.Formed.eq_concat {t : Token} (h : t.Formed) (ht : t.kind ≠ .eos) :
    ∃ front c, t.text = front ++ [c] ∧ c ≠ '\n' := by
  cases h with
  | eos p => exact absurd rfl ht
  | @classified text p hpiece hsolid =>
      obtain ⟨form, hform⟩ := hpiece
      have hne : text ≠ [] := by
        obtain ⟨first, more, rfl⟩ := hform.exists_cons
        exact List.cons_ne_nil first more
      obtain ⟨front, c, rfl⟩ := (List.eq_nil_or_concat' text).resolve_left hne
      refine ⟨front, c, rfl, ?_⟩
      rintro rfl
      exact absurd (hsolid '\n' (by simp)) (by decide)
  | @literal lead kind quote body p hlead hquote hhex =>
      refine ⟨lead ++ quote :: body, quote, by simp, ?_⟩
      rintro rfl
      exact absurd hquote (by decide)

namespace TokenReader

/-- The span of a string literal is told by where it starts and by its text. -/
theorem Reached.quoted_last {feed : Feed} {r : TokenReader} (hr : r.Reached feed) {α : Type}
    {production : Production α} {tree : α} (h : (r.parse production).result = .ok tree)
    {o : Outline} (ho : o ∈ production.outlines tree) {l : Leaf} (hl : l ∈ o.leaves)
    {span : Span} {value : List Char} (hquoted : (span, value) ∈ l.quoted?) :
    span.last = ⟨span.first.line + value.count '\n',
      if '\n' ∈ value then (Runes.lastLine value).length
      else span.first.column + value.length - 1⟩ := by
  obtain ⟨hkinds, -, hrecorded⟩ := (production.gathers _).sound (by simp) h
  obtain ⟨us, hus, hrecorded⟩ := hrecorded o ho
  obtain ⟨vs, hvs, hrecords⟩ := hrecorded.of_mem hl
  obtain ⟨t, ht, rfl, rfl⟩ := hrecords.quoted hquoted
  have htaken : t ∈ r.consumed production := (hvs.trans hus).subset ht
  obtain ⟨front, c, htext, hc⟩ :=
    (hr.formed_consumed production t htaken).eq_concat (hkinds t htaken)
  show t.position.lastRune t.text = _
  rw [htext]
  exact Position.lastRune_concat t.position hc

end TokenReader

/-- The last rune of a text is found by counting newlines and the runes behind the last of them,
and the position behind the text comes right after it. Texts can be stepped over one by one. So
the end of a string literal in a tree is told by its start and its value, on whatever reader the
production is made. -/
theorem position_arithmetic {p : Position} {text : List Char} (h : text ≠ []) :
    p.lastRune text = ⟨p.line + text.dropLast.count '\n',
      if '\n' ∈ text.dropLast then (Runes.lastLine text.dropLast).length + 1
      else p.column + text.length - 1⟩ ∧
    Fragment.next ⟨p, text⟩ = (p.lastRune text).after (text.getLast h) ∧
    p ≤ p.lastRune text ∧ p.lastRune text < Fragment.next ⟨p, text⟩ ∧
    (∀ front back : List Char,
      Fragment.next ⟨p, front ++ back⟩ = Fragment.next ⟨Fragment.next ⟨p, front⟩, back⟩) ∧
    ∀ feed r, TokenReader.Reached feed r →
      ∀ {α : Type} (production : Production α) tree, (r.parse production).result = .ok tree →
        ∀ o ∈ production.outlines tree, ∀ l ∈ o.leaves, ∀ span value,
          l.quoted? = some (span, value) →
            span.last = ⟨span.first.line + value.count '\n',
              if '\n' ∈ value then (Runes.lastLine value).length
              else span.first.column + value.length - 1⟩ := by
  refine ⟨p.lastRune_eq h, ?_, p.le_lastRune text, p.lastRune_lt_advance h, ?_, ?_⟩
  · rw [Position.lastRune_eq_advance, Fragment.next]
    conv_lhs => rw [← List.dropLast_append_getLast h, Position.advance_append]
    rfl
  · exact fun front back => p.advance_append front back
  · intro feed r hr α production tree htree o ho l hl span value hquoted
    exact hr.quoted_last htree ho hl hquoted

theorem position_arithmetic_two_lines :
    "'a\nbc'".toList ≠ [] ∧ Position.start.lastRune "'a\nbc'".toList = ⟨2, 3⟩ ∧
    Fragment.next ⟨.start, "'a\nbc'".toList⟩ = ⟨2, 4⟩ ∧
    ∃ l : StringLiteral,
      ((TokenReader.ofFeed (.ofText "'a\nbc'".toList)).parse .literal).result =
        .ok (.string l) ∧
      l.value = "'a\nbc'".toList ∧ l.span = ⟨⟨1, 1⟩, ⟨2, 3⟩⟩ := by
  have hne : "'a\nbc'".toList ≠ [] := by decide
  have hr := TokenReader.at_ofFeed "'a\nbc'".toList
  have hweight : (TokenReader.ofFeed (.ofText "'a\nbc'".toList)).weight = 6 := by decide +kernel
  have hup : (Place.ofText "'a\nbc'".toList).Upcoming
      [⟨.nonEmptyString, "'a\nbc'".toList, ⟨1, 1⟩⟩] (.ok (.eos ⟨2, 4⟩)) :=
    .token (n := ⟨[], ⟨2, 4⟩⟩) (by cbv) rfl (.finished (n := ⟨[], ⟨2, 4⟩⟩) rfl rfl)
  have hparse : ∃ l : StringLiteral,
      ((TokenReader.ofFeed (.ofText "'a\nbc'".toList)).parse .literal).result =
        .ok (.string l) ∧ l.value = "'a\nbc'".toList ∧ l.span.first = ⟨1, 1⟩ := by
    rw [TokenReader.parse, hweight]
    exact ⟨_, (Rule.run_describes (Production.literal.rule 7) hr hup).1, rfl, rfl⟩
  obtain ⟨l, hl, hvalue, hfirst⟩ := hparse
  obtain ⟨hlast, hnext, -, -, -, hliteral⟩ := position_arithmetic (p := .start) hne
  have hend := hliteral _ _ .start .literal (.string l) hl _ (List.mem_singleton_self _)
    (.literal l) (by simp [Literal.outline, StringLiteral.outline]) l.span l.value rfl
  rw [hfirst, hvalue] at hend
  have hspan : l.span = ⟨⟨1, 1⟩, ⟨2, 3⟩⟩ := by
    rw [show l.span = ⟨l.span.first, l.span.last⟩ from rfl, hfirst, hend]
    decide
  refine ⟨hne, hlast.trans (by decide), ?_, l, hl, hvalue, hspan⟩
  rw [hnext, hlast]
  rfl

end SoliditySource
