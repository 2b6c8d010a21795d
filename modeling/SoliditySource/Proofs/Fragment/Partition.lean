import Mathlib.Logic.ExistsUnique
import SoliditySource.Proofs.Fragment.Forms

/-! # How a text falls into fragments

Handing out fragments up to the end of a text divides it into pieces that each have a form where
they stand, with nothing left out. A text can be divided into such pieces in one way only
(`drain_partition`).
-/

namespace SoliditySource

namespace Runes

/-- The fragments that a text falls into when it stands at a position. -/
inductive Divides : Position → List Char → List Fragment → Prop where
  | nil (p : Position) : Divides p [] []
  | cons {p : Position} {cs : List Char} {fs : List Fragment} (hne : cs ≠ [])
      (h : Divides (p.advance (lexeme cs)) (afterLexeme cs) fs) :
      Divides p cs (⟨p, lexeme cs⟩ :: fs)

variable {p : Position} {cs : List Char} {fs : List Fragment}

theorem Divides.flatMap_eq (h : Divides p cs fs) : fs.flatMap Fragment.text = cs := by
  induction h with
  | nil => rfl
  | cons hne h ih => rw [List.flatMap_cons, ih, lexeme_append_afterLexeme]

/-- Each fragment stands behind the ones before it and has a form in front of the ones behind
it. -/
theorem Divides.spec (h : Divides p cs fs) {front back : List Fragment} {f : Fragment}
    (hf : fs = front ++ f :: back) :
    f.position = p.advance (front.flatMap Fragment.text) ∧
      ∃ form, HasForm form f.text (back.flatMap Fragment.text) := by
  induction h generalizing front with
  | nil => simp at hf
  | @cons p cs fs hne h ih =>
      cases front with
      | nil =>
          rw [List.nil_append, List.cons.injEq] at hf
          obtain ⟨rfl, rfl⟩ := hf
          obtain ⟨first, rest, rfl⟩ := List.exists_cons_of_ne_nil hne
          rw [h.flatMap_eq]
          exact ⟨rfl, _, hasForm_lexeme first rest⟩
      | cons g front =>
          rw [List.cons_append, List.cons.injEq] at hf
          obtain ⟨rfl, hf⟩ := hf
          obtain ⟨hposition, hform⟩ := ih hf
          rw [hposition, ← Position.advance_append, List.flatMap_cons]
          exact ⟨rfl, hform⟩

/-- Pieces that each have a form where they stand are the fragments. By induction on the pieces:
the first one is the fragment in front of the text, and the others divide what is left. -/
theorem Divides.map_text_eq {pieces : List (List Char)} (h : Divides p pieces.flatten fs)
    (hforms : ∀ front piece back, pieces = front ++ piece :: back →
      ∃ form, HasForm form piece back.flatten) : fs.map Fragment.text = pieces := by
  induction pieces generalizing p fs with
  | nil =>
      cases h with
      | nil => rfl
      | cons hne => exact absurd rfl hne
  | cons piece pieces ih =>
      obtain ⟨form, hform⟩ := hforms [] piece pieces rfl
      obtain ⟨first, more, rfl⟩ := hform.exists_cons
      have hlexeme : lexeme ((first :: more) :: pieces).flatten = first :: more :=
        hform.lexeme_eq.2
      have hafter : afterLexeme ((first :: more) :: pieces).flatten = pieces.flatten := by
        rw [afterLexeme, hlexeme, List.flatten_cons, List.drop_left]
      cases h with
      | cons hne h =>
          rw [hafter] at h
          rw [List.map_cons, hlexeme, ih h]
          intro front piece back hpieces
          exact hforms ((first :: more) :: front) piece back (by rw [hpieces]; rfl)

/-- Each rune of a text lies in one of the fragments that make it up. -/
theorem exists_around {before after : List Char} {c : Char}
    (h : fs.flatMap Fragment.text = before ++ c :: after) :
    ∃ front f back earlier later, fs = front ++ f :: back ∧ f.text = earlier ++ c :: later ∧
      before = front.flatMap Fragment.text ++ earlier ∧
      after = later ++ back.flatMap Fragment.text := by
  induction fs generalizing before with
  | nil => simp at h
  | cons f fs ih =>
      rw [List.flatMap_cons] at h
      obtain ⟨more, hbefore, hafter⟩ | ⟨more, htext, hover⟩ := List.append_eq_append_iff.mp h
      · obtain ⟨front, g, back, earlier, later, rfl, hg, rfl, hback⟩ := ih hafter
        refine ⟨f :: front, g, back, earlier, later, rfl, hg, ?_, hback⟩
        rw [hbefore, List.flatMap_cons, List.append_assoc]
      · cases more with
        | nil =>
            have hafter : fs.flatMap Fragment.text = [] ++ c :: after := hover.symm
            obtain ⟨front, g, back, earlier, later, rfl, hg, hnil, hback⟩ := ih hafter
            refine ⟨f :: front, g, back, earlier, later, rfl, hg, ?_, hback⟩
            rw [List.flatMap_cons, List.append_assoc, ← hnil, htext, List.append_nil,
              List.append_nil]
        | cons d later =>
            obtain ⟨rfl, hafter⟩ := List.cons.inj hover
            exact ⟨[], f, fs, before, later, rfl, htext, rfl, hafter⟩

end Runes

namespace FragmentReader

variable {r : FragmentReader} {cs : List Char} {p : Position}

theorem drain_none {s : FragmentReader} (h : next r = .ok none s) : drain r = ⟨[], none, s⟩ := by
  rw [drain.eq_def]
  split <;> rename_i h' <;> cases h.symm.trans h'
  rfl

theorem drain_some {f : Fragment} {s : FragmentReader} (h : next r = .ok (some f) s) :
    drain r = { drain s with fragments := f :: (drain s).fragments } := by
  rw [drain.eq_def]
  split <;> rename_i h' <;> cases h.symm.trans h'
  rfl

/-- Handing out all fragments of a text divides it. -/
theorem drain_stands (h : r.Stands cs p) :
    ∃ fs s, drain r = ⟨fs, none, s⟩ ∧ Runes.Divides p cs fs ∧ s.Stands [] (p.advance cs) := by
  induction hn : cs.length using Nat.strongRecOn generalizing r cs p with
  | _ n ih =>
      subst hn
      by_cases hne : cs = []
      · subst hne
        obtain ⟨s, hs, ha⟩ := next_nil h
        exact ⟨[], s, drain_none hs, .nil p, ha⟩
      · obtain ⟨s, hs, ha⟩ := next_cons h hne
        obtain ⟨fs, u, hu, hdivides, hend⟩ := ih _ (Runes.length_afterLexeme hne) (.inl ha) rfl
        rw [← Position.advance_append, Runes.lexeme_append_afterLexeme] at hend
        refine ⟨_, u, ?_, .cons hne hdivides, hend⟩
        rw [drain_some hs, hu]

/-- The fragments of a text are handed out without a failure. They make up the text, each stands
behind the ones before it, and each has exactly one form where it stands. No other pieces that
make up the text and have a form where they stand are there. -/
theorem drain_partition (text : List Char) :
    let run := (ofFeed (.ofText text)).drain
    run.failure = none ∧ run.fragments.flatMap Fragment.text = text ∧
      run.reader.position = Position.start.advance text ∧
      (∀ front f back, run.fragments = front ++ f :: back →
        f.text ≠ [] ∧ f.position = Position.start.advance (front.flatMap Fragment.text) ∧
        f.next = (back.head?.map Fragment.position).getD run.reader.position ∧
        ∃! form, Runes.HasForm form f.text (back.flatMap Fragment.text)) ∧
      ∀ pieces : List (List Char), pieces.flatten = text →
        (∀ front piece back, pieces = front ++ piece :: back →
          ∃ form, Runes.HasForm form piece back.flatten) →
        run.fragments.map Fragment.text = pieces := by
  intro run
  obtain ⟨fs, s, hrun, hdivides, hend⟩ := drain_stands (.inl (ahead_ofFeed text))
  have hfeed : run = ⟨fs, none, s⟩ := by rw [← hrun, ← Feed.ofText_eq_runes]
  rw [hfeed]
  refine ⟨rfl, hdivides.flatMap_eq, hend.position_eq, fun front f back hfs => ?_, ?_⟩
  · obtain ⟨hposition, form, hform⟩ := hdivides.spec hfs
    obtain ⟨first, more, hcons⟩ := hform.exists_cons
    refine ⟨by rw [hcons]; exact List.cons_ne_nil _ _, hposition, ?_, form, hform, ?_⟩
    · have hnext : f.next = Position.start.advance ((front ++ [f]).flatMap Fragment.text) := by
        rw [Fragment.next, hposition, ← Position.advance_append]
        simp
      cases back with
      | nil => rw [hnext, ← hfs, hdivides.flatMap_eq]; exact hend.position_eq.symm
      | cons g back =>
          have hsplit : fs = (front ++ [f]) ++ g :: back := by simpa using hfs
          rw [hnext, ← (hdivides.spec hsplit).1]
          rfl
    · intro other hother
      rw [hcons] at hform hother
      rw [hform.lexeme_eq.1, hother.lexeme_eq.1]
  · rintro pieces rfl hforms
    exact hdivides.map_text_eq hforms

end FragmentReader

end SoliditySource
