import SoliditySource.Position

/-! # Parts of a text

The part of a text that a span covers, and what becomes of positions when such a part is
taken for a text of its own: its first line loses what stood before it, the other lines keep
their columns.
-/

namespace SoliditySource

namespace Position

/-! ## Reading order -/

theorem le_refl (p : Position) : p ≤ p := .inr ⟨rfl, Nat.le_refl _⟩

theorem le_trans {p q r : Position} (h : p ≤ q) (h' : q ≤ r) : p ≤ r := by
  change p.line < q.line ∨ _ at h
  change q.line < r.line ∨ _ at h'
  change p.line < r.line ∨ (p.line = r.line ∧ p.column ≤ r.column)
  omega

theorem not_le_of_lt {p q : Position} (h : p < q) : ¬ q ≤ p := by
  intro hle
  change p.line < q.line ∨ _ at h
  change q.line < p.line ∨ _ at hle
  omega

theorem le_of_not_le {p q : Position} (h : ¬ p ≤ q) : q ≤ p := by
  change ¬ (p.line < q.line ∨ (p.line = q.line ∧ p.column ≤ q.column)) at h
  change q.line < p.line ∨ (q.line = p.line ∧ q.column ≤ p.column)
  omega

theorem lt_of_lt_of_le {p q r : Position} (h : p < q) (h' : q ≤ r) : p < r := by
  change p.line < q.line ∨ _ at h
  change q.line < r.line ∨ _ at h'
  change p.line < r.line ∨ (p.line = r.line ∧ p.column < r.column)
  omega

theorem lt_after (p : Position) (c : Char) : p < p.after c := by
  unfold after
  split
  · exact .inl (Nat.lt_succ_self _)
  · exact .inr ⟨rfl, Nat.lt_succ_self _⟩

theorem le_of_lt {p q : Position} (h : p < q) : p ≤ q := by
  change p.line < q.line ∨ _ at h
  change p.line < q.line ∨ (p.line = q.line ∧ p.column ≤ q.column)
  omega

theorem le_advance (p : Position) (text : List Char) : p ≤ p.advance text := by
  induction text generalizing p with
  | nil => exact le_refl p
  | cons c text ih => exact le_trans (le_of_lt (lt_after p c)) (ih (p.after c))

theorem le_lastRune (p : Position) (text : List Char) : p ≤ p.lastRune text := by
  rw [lastRune_eq_advance]
  exact le_advance p _

theorem lastRune_append (p : Position) (front : List Char) {back : List Char} (h : back ≠ []) :
    p.lastRune (front ++ back) = (p.advance front).lastRune back := by
  rw [lastRune_eq_advance, lastRune_eq_advance, List.dropLast_append_of_ne_nil h, advance_append]

theorem lastRune_lt_advance (p : Position) {text : List Char} (h : text ≠ []) :
    p.lastRune text < p.advance text := by
  rcases List.eq_nil_or_concat text with rfl | ⟨front, c, rfl⟩
  · exact absurd rfl h
  · rw [lastRune_eq_advance, List.concat_eq_append, List.dropLast_concat, advance_append]
    exact lt_after _ _

/-- Along a text, no position comes twice. -/
theorem eq_of_advance_eq {p : Position} {front back front' back' : List Char}
    (htext : front ++ back = front' ++ back') (h : p.advance front = p.advance front') :
    front = front' := by
  have hnil : ∀ base more : List Char, p.advance base = p.advance (base ++ more) → more = [] := by
    intro base more heq
    by_cases hne : more = []
    · exact hne
    · have hlt := lastRune_lt_advance (p.advance base) hne
      rw [← advance_append, ← heq] at hlt
      exact absurd (le_lastRune _ _) (not_le_of_lt hlt)
  obtain ⟨more, rfl, -⟩ | ⟨more, rfl, -⟩ := List.append_eq_append_iff.mp htext
  · rw [hnil front more h, List.append_nil]
  · rw [hnil front' more h.symm, List.append_nil]

/-! ## Texts cut out -/

/-- Where a position stands once `base` is the start of the text. -/
def relativeTo (base p : Position) : Position :=
  if p.line = base.line then ⟨1, p.column - (base.column - 1)⟩
  else ⟨p.line - (base.line - 1), p.column⟩

theorem isKnown_after {p : Position} (h : p.isKnown = true) (c : Char) :
    (p.after c).isKnown = true := by
  simp only [isKnown, Bool.and_eq_true, decide_eq_true_eq] at h ⊢
  unfold after
  split
  · exact ⟨Nat.succ_pos _, Nat.succ_pos _⟩
  · exact ⟨h.1, Nat.succ_pos _⟩

theorem isKnown_advance {p : Position} (h : p.isKnown = true) (text : List Char) :
    (p.advance text).isKnown = true := by
  induction text generalizing p with
  | nil => exact h
  | cons c text ih => exact ih (isKnown_after h c)

theorem relativeTo_self {base : Position} (h : base.isKnown = true) :
    relativeTo base base = start := by
  simp only [isKnown, Bool.and_eq_true, decide_eq_true_eq] at h
  rw [relativeTo, if_pos rfl]
  show Position.mk 1 (base.column - (base.column - 1)) = ⟨1, 1⟩
  congr 1
  omega

theorem relativeTo_after {base p : Position} (h : base.isKnown = true) (hle : base ≤ p)
    (c : Char) : relativeTo base (p.after c) = (relativeTo base p).after c := by
  simp only [isKnown, Bool.and_eq_true, decide_eq_true_eq] at h
  change base.line < p.line ∨ (base.line = p.line ∧ base.column ≤ p.column) at hle
  by_cases hc : c = '\n'
  · have hnext : ¬ p.line + 1 = base.line := by omega
    simp only [after, if_pos hc, relativeTo, if_neg hnext]
    by_cases hl : p.line = base.line
    · rw [if_pos hl]
      show Position.mk (p.line + 1 - (base.line - 1)) 1 = ⟨1 + 1, 1⟩
      congr 1
      omega
    · rw [if_neg hl]
      show Position.mk (p.line + 1 - (base.line - 1)) 1 = ⟨p.line - (base.line - 1) + 1, 1⟩
      congr 1
      omega
  · simp only [after, if_neg hc, relativeTo]
    by_cases hl : p.line = base.line
    · rw [if_pos hl, if_pos hl]
      show Position.mk 1 (p.column + 1 - (base.column - 1)) =
        ⟨1, p.column - (base.column - 1) + 1⟩
      congr 1
      omega
    · rw [if_neg hl, if_neg hl]

theorem relativeTo_advance_of_le {base p : Position} (h : base.isKnown = true) (hle : base ≤ p)
    (text : List Char) : relativeTo base (p.advance text) = (relativeTo base p).advance text := by
  induction text generalizing p with
  | nil => rfl
  | cons c text ih =>
      rw [advance_cons, advance_cons, ← relativeTo_after h hle]
      exact ih (le_trans hle (le_of_lt (lt_after p c)))

/-- A part of a text that stands at `base` is read as if it stood at the start. -/
theorem relativeTo_advance {base : Position} (h : base.isKnown = true) (text : List Char) :
    relativeTo base (base.advance text) = start.advance text := by
  rw [relativeTo_advance_of_le h (le_refl base), relativeTo_self h]

end Position

namespace Span

/-- The runes of `text`, which stands at `p`, that lie within the span. -/
def runes (span : Span) (p : Position) : List Char → List Char
  | [] => []
  | c :: text =>
      if span.first ≤ p ∧ p ≤ span.last then c :: span.runes (p.after c) text
      else span.runes (p.after c) text

/-- The runes of a text from the first to the last position of the span. -/
def slice (span : Span) (text : List Char) : List Char := span.runes .start text

variable {span : Span} {p : Position}

theorem runes_append (span : Span) (p : Position) (front back : List Char) :
    span.runes p (front ++ back) = span.runes p front ++ span.runes (p.advance front) back := by
  induction front generalizing p with
  | nil => rfl
  | cons c front ih =>
      rw [List.cons_append, runes, runes, ih, Position.advance_cons]
      split <;> rfl

theorem runes_before {text : List Char} (h : p.advance text ≤ span.first) :
    span.runes p text = [] := by
  induction text generalizing p with
  | nil => rfl
  | cons c text ih =>
      have hlt := Position.lt_of_lt_of_le (Position.lt_after p c)
        (Position.le_trans (Position.le_advance _ text) h)
      rw [runes, if_neg (fun hin => Position.not_le_of_lt hlt hin.1)]
      exact ih h

theorem runes_behind {text : List Char} (h : span.last < p) : span.runes p text = [] := by
  induction text generalizing p with
  | nil => rfl
  | cons c text ih =>
      rw [runes, if_neg (fun hin => Position.not_le_of_lt h hin.2)]
      exact ih (Position.lt_of_lt_of_le h (Position.le_of_lt (Position.lt_after p c)))

theorem runes_within {text : List Char} (hf : span.first ≤ p)
    (hl : p.lastRune text ≤ span.last) : span.runes p text = text := by
  induction text generalizing p with
  | nil => rfl
  | cons c text ih =>
      have hle : p ≤ span.last := Position.le_trans (Position.le_lastRune p _) hl
      rw [runes, if_pos ⟨hf, hle⟩]
      cases text with
      | nil => rfl
      | cons d text =>
          rw [ih (Position.le_trans hf (Position.le_of_lt (Position.lt_after p c))) hl]

/-- The part of a text between two others is what its own span covers. -/
theorem slice_between (front : List Char) {mid : List Char} (back : List Char) (h : mid ≠ []) :
    slice ⟨Position.start.advance front, (Position.start.advance front).lastRune mid⟩
      (front ++ mid ++ back) = mid := by
  have hlt := Position.lastRune_lt_advance (Position.start.advance front) h
  rw [slice, runes_append, runes_append, runes_before (Position.le_refl _),
    runes_within (Position.le_refl _) (Position.le_refl _), List.nil_append,
    runes_behind (by rw [Position.advance_append]; exact hlt), List.append_nil]

end Span

end SoliditySource
