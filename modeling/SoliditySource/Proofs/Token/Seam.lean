import SoliditySource.Proofs.Token.Relayout

/-! # Texts in a row

Where the tokens of a text end with a closing mark, nothing that comes behind the text changes
them: the mark is a token whatever comes next, and the other tokens have it, or one of
themselves, behind them. So the tokens of two texts in a row are those of the first text and
then those of the second one, at the positions to which the end of the first text moves them.
-/

namespace SoliditySource

namespace Position

/-- Where a position of a text stands once the text starts at `base`: its first line goes on
from there, the other lines keep their columns. -/
def shift (base p : Position) : Position :=
  if p.line = 1 then ⟨base.line, base.column + (p.column - 1)⟩
  else ⟨base.line + (p.line - 1), p.column⟩

theorem shift_start (base : Position) : shift base start = base := rfl

theorem shift_after (base : Position) {p : Position} (h : p.isKnown = true) (c : Char) :
    shift base (p.after c) = (shift base p).after c := by
  have hknown : 0 < p.line ∧ 0 < p.column := by simpa [isKnown] using h
  by_cases hc : c = '\n'
  · have hnext : p.line + 1 ≠ 1 := by omega
    by_cases hline : p.line = 1
    · simp [shift, after, hc, hline]
    · simp only [shift, after, hc, hline, hnext, if_true, if_false, mk.injEq, and_true]
      omega
  · by_cases hline : p.line = 1
    · simp only [shift, after, hc, hline, if_true, if_false, mk.injEq, true_and]
      omega
    · simp [shift, after, hc, hline]

theorem shift_advance_of_known (base : Position) {p : Position} (h : p.isKnown = true)
    (text : List Char) : shift base (p.advance text) = (shift base p).advance text := by
  induction text generalizing p with
  | nil => rfl
  | cons c text ih => rw [advance_cons, advance_cons, ← shift_after base h, ih (isKnown_after h c)]

/-- A text leads from `base` where it leads from the start, shifted. -/
theorem shift_advance (base : Position) (text : List Char) :
    shift base (start.advance text) = base.advance text := by
  rw [shift_advance_of_known base rfl, shift_start]

end Position

@[simp] theorem Token.relocate_eos (f : Position → Position) (p : Position) :
    (Token.eos p).relocate f = .eos (f p) := rfl

namespace Place

variable {place : Place} {ts us : List Token} {eos : Token} {ending : Except Fault Token}

theorem Upcoming.solid_ne_nil {t : Token} (h : place.Upcoming (t :: ts) ending) :
    place.runes.dropWhile Rune.isBlank ≠ [] := by
  cases h with
  | token hread ht _ =>
      have htakes := takes_of_read hread ht
      rw [htakes.runes, Runes.dropWhile_blanks htakes.blank htakes.solid]
      simp [htakes.ne_nil]

/-- Tokens that end with a closing mark are read again in front of other runes, and then the
tokens of these. By induction on the tokens: the last one is a closing mark, each other one has
a token behind it, and runes that are added behind a token are milder. -/
theorem Upcoming.append {more : List Char} (h : place.Upcoming ts (.ok eos))
    (hclosed : ∀ t, ts.getLast? = some t → Runes.isCloser t.kind = true)
    (hmore : Upcoming ⟨more, place.position.advance place.runes⟩ us ending) :
    Upcoming ⟨place.runes ++ more, place.position⟩ (ts ++ us) ending := by
  induction h using Upcoming.induction_on_ok with
  | finished hread heos =>
      obtain ⟨hblank, -⟩ := eq_eos_of_read hread heos
      exact hmore.of_solid (solid_of_blanks rfl hblank)
  | @token place next t ts hread ht hn ih =>
      have htakes := takes_of_read hread ht
      have htoken : Runes.token (t.text ++ (next.runes ++ more)) = .ok (t.kind, t.text) := by
        cases ts with
        | nil =>
            have hmark : Runes.isCloser t.kind = true := hclosed t rfl
            have hkind := Runes.isCloser_token htakes.token hmark
            rw [hkind] at hmark ⊢
            exact Runes.token_closer hmark _
        | cons u ts =>
            have hsolid := hn.solid_ne_nil
            have hne : next.runes ≠ [] := by
              intro hnil
              rw [hnil] at hsolid
              exact hsolid rfl
            exact htakes.token_milder (.append_right hne more) (·.append_right hsolid more)
      have hplace : place.runes ++ more =
          place.runes.takeWhile Rune.isBlank ++ (t.text ++ (next.runes ++ more)) := by
        conv_lhs => rw [htakes.runes]
        simp
      have hposition :
          place.position.advance place.runes = next.position.advance next.runes := by
        rw [htakes.next_position, htakes.position, ← Position.advance_append,
          ← Position.advance_append, ← htakes.runes]
      have hread := htakes.read_of_token htoken place.position
      rw [← hplace, ← htakes.position, ← htakes.next_position] at hread
      refine .token hread ht (ih (fun u hu => hclosed u ?_) (hposition ▸ hmore))
      rw [List.getLast?_cons, hu, Option.getD_some]

/-- The tokens of a text that starts elsewhere. -/
theorem Upcoming.moved (h : place.Upcoming ts (.ok eos)) {f : Position → Position} {q : Position}
    (hf : ∀ text, f (place.position.advance text) = q.advance text) :
    Upcoming ⟨place.runes, q⟩ (ts.map (Token.relocate f)) (.ok (eos.relocate f)) := by
  induction h using Upcoming.induction_on_ok generalizing q with
  | @finished place _ hread heos =>
      obtain ⟨hblank, rfl, -⟩ := eq_eos_of_read hread heos
      rw [Token.relocate_eos, hf]
      exact .finished (read_blanks hblank q) rfl
  | token hread ht _ ih =>
      have htakes := takes_of_read hread ht
      obtain ⟨htoken, hbehind⟩ := htakes.moved hf
      have hread := htakes.read_of_token htakes.token q
      rw [← htakes.runes] at hread
      rw [List.map_cons, htoken]
      exact .token hread ht (ih hbehind)

end Place

end SoliditySource
