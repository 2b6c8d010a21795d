import SoliditySource.Fragment.Reader
import SoliditySource.Proofs.Source.Text

/-! # Fragments of a text

How a text falls into fragments can be said of its runes alone, without a reader:
`Runes.lexeme` is the fragment a text starts with. A reader that has the text ahead of it
cuts off exactly this fragment.
-/

namespace SoliditySource

namespace Runes

/-- The longest operator that starts with `op` and goes on with runes of `ahead`, at most
`n` of them. -/
def operator : (n : Nat) → (op ahead : List Char) → List Char
  | 0, op, _ => op
  | _ + 1, op, [] => op
  | n + 1, op, c :: ahead => if c ∈ Rune.extensions op then operator n (op ++ [c]) ahead else op

/-- The fragment that a text starts with. -/
def lexeme : List Char → List Char
  | [] => []
  | first :: rest =>
      if Rune.isSplit first then operator 3 [first] rest
      else if first = '\n' ∨ first = '.' then [first]
      else if Rune.isSpace first then (first :: rest).takeWhile Rune.isSpace
      else (first :: rest).takeWhile fun c => Rune.isWord c && (c ≠ '.' || first.isDigit)

/-- What is left of a text after its first fragment. -/
def afterLexeme (cs : List Char) : List Char := cs.drop (lexeme cs).length

theorem operator_eq_append (n : Nat) (op ahead : List Char) :
    ∃ more, operator n op ahead = op ++ more ∧ more <+: ahead := by
  induction n generalizing op ahead with
  | zero => exact ⟨[], by simp [operator]⟩
  | succ n ih =>
      cases ahead with
      | nil => exact ⟨[], by simp [operator]⟩
      | cons c ahead =>
          rw [operator]
          split
          · obtain ⟨more, he, hp⟩ := ih (op ++ [c]) ahead
            exact ⟨c :: more, by rw [he, List.append_assoc]; rfl,
              (List.prefix_cons_inj c).mpr hp⟩
          · exact ⟨[], by simp⟩

theorem isPrefix_lexeme (cs : List Char) : lexeme cs <+: cs := by
  cases cs with
  | nil => exact List.prefix_rfl
  | cons first rest =>
      rw [lexeme]
      split
      · obtain ⟨more, he, hp⟩ := operator_eq_append 3 [first] rest
        rw [he]
        exact (List.prefix_cons_inj first).mpr hp
      · split
        · exact (List.prefix_cons_inj first).mpr List.nil_prefix
        · split <;> exact List.takeWhile_prefix _

theorem lexeme_append_afterLexeme (cs : List Char) : lexeme cs ++ afterLexeme cs = cs := by
  obtain ⟨rest, he⟩ := isPrefix_lexeme cs
  have hd : cs.drop (lexeme cs).length = (lexeme cs ++ rest).drop (lexeme cs).length := by
    rw [he]
  rw [afterLexeme, hd, List.drop_left, he]

theorem lexeme_ne_nil {cs : List Char} (h : cs ≠ []) : lexeme cs ≠ [] := by
  cases cs with
  | nil => exact absurd rfl h
  | cons first rest =>
      rw [lexeme]
      split
      · obtain ⟨more, he, -⟩ := operator_eq_append 3 [first] rest
        rw [he]
        exact List.cons_ne_nil _ _
      · next hs =>
          split
          · exact List.cons_ne_nil _ _
          · next hn =>
              rw [not_or] at hn
              split
              · next hsp => simp [hsp]
              · next hsp =>
                  have hw : Rune.isWord first = true := by simp [Rune.isWord, hs, hsp, hn.1]
                  simp [hw, hn.2]

theorem length_afterLexeme {cs : List Char} (h : cs ≠ []) :
    (afterLexeme cs).length < cs.length := by
  have hp := List.length_pos_iff.mpr (lexeme_ne_nil h)
  have hl := congrArg List.length (lexeme_append_afterLexeme cs)
  rw [List.length_append] at hl
  omega

/-! ## What the first rune tells -/

theorem head?_lexeme (cs : List Char) : (lexeme cs).head? = cs.head? := by
  cases cs with
  | nil => rfl
  | cons first rest =>
      obtain ⟨more, he⟩ := isPrefix_lexeme (first :: rest)
      cases hx : lexeme (first :: rest) with
      | nil => exact absurd hx (lexeme_ne_nil (List.cons_ne_nil _ _))
      | cons c text =>
          rw [hx, List.cons_append, List.cons.injEq] at he
          rw [he.1]
          rfl

/-- No operator goes on with a quote or a backslash. -/
theorem not_mem_extensions {c : Char} (h : Rune.isQuote c = true ∨ c = '\\')
    (op : List Char) : c ∉ Rune.extensions op := by
  have hc : c = '"' ∨ c = '\'' ∨ c = '\\' := by
    simpa [Rune.isQuote, or_assoc] using h
  unfold Rune.extensions
  rcases hc with rfl | rfl | rfl <;> split <;> decide

theorem not_mem_operator {c : Char} (h : Rune.isQuote c = true ∨ c = '\\') (n : Nat)
    {op : List Char} (hop : c ∉ op) (ahead : List Char) : c ∉ operator n op ahead := by
  induction n generalizing op ahead with
  | zero => exact hop
  | succ n ih =>
      cases ahead with
      | nil => exact hop
      | cons d ahead =>
          rw [operator]
          split
          · next hd =>
              refine ih ?_ ahead
              rw [List.mem_append, List.mem_singleton]
              rintro (hc | rfl)
              · exact hop hc
              · exact not_mem_extensions h op hd
          · exact hop

/-- A quote or a backslash is a fragment by itself. -/
theorem lexeme_of_special {c : Char} (h : Rune.isQuote c = true ∨ c = '\\')
    (rest : List Char) : lexeme (c :: rest) = [c] := by
  have hc : c = '"' ∨ c = '\'' ∨ c = '\\' := by
    simpa [Rune.isQuote, or_assoc] using h
  have hs : Rune.isSplit c = true := by rcases hc with rfl | rfl | rfl <;> decide
  have he : Rune.extensions [c] = [] := by rcases hc with rfl | rfl | rfl <;> rfl
  rw [lexeme, if_pos hs]
  cases rest with
  | nil => rfl
  | cons d rest => rw [operator, he, if_neg List.not_mem_nil]

theorem mem_takeWhile_imp {fits : Char → Bool} {cs : List Char} {c : Char}
    (h : c ∈ cs.takeWhile fits) : fits c = true := by
  induction cs with
  | nil => cases h
  | cons d cs ih =>
      rw [List.takeWhile_cons] at h
      split at h
      · next hd =>
          rcases List.mem_cons.mp h with rfl | h
          · exact hd
          · exact ih h
      · cases h

/-- A fragment holds no quote and no backslash unless it starts with one. -/
theorem not_mem_lexeme {c : Char} (h : Rune.isQuote c = true ∨ c = '\\') {first : Char}
    (hf : ¬ (Rune.isQuote first = true ∨ first = '\\')) (rest : List Char) :
    c ∉ lexeme (first :: rest) := by
  have hne : c ≠ first := by
    rintro rfl
    exact hf h
  have hc : c = '"' ∨ c = '\'' ∨ c = '\\' := by
    simpa [Rune.isQuote, or_assoc] using h
  rw [lexeme]
  split
  · exact not_mem_operator h 3 (by simpa using hne) rest
  · split
    · simpa using hne
    · split
      · intro hm
        have := mem_takeWhile_imp hm
        rcases hc with rfl | rfl | rfl <;> revert this <;> decide
      · intro hm
        have hw : Rune.isWord c = true := by
          have := mem_takeWhile_imp hm
          rw [Bool.and_eq_true] at this
          exact this.1
        rcases hc with rfl | rfl | rfl <;> revert hw <;> decide

theorem isSplit_of_isBlank {c : Char} (h : Rune.isBlank c = true) :
    Rune.isSplit c = false := by
  rw [← Bool.not_eq_true]
  intro hs
  have hall : ∀ {l : List Char}, c ∈ l → (l.all fun d => !Rune.isBlank d) = true → False := by
    intro l hc hl
    have hb := List.all_eq_true.mp hl c hc
    simp [h] at hb
  exact hall (of_decide_eq_true hs) (by decide)

/-- A fragment that starts with a blank rune holds nothing else. -/
theorem isBlank_of_mem_lexeme {first c : Char} {rest : List Char}
    (hf : Rune.isBlank first = true) (h : c ∈ lexeme (first :: rest)) :
    Rune.isBlank c = true := by
  have hb : first = '\n' ∨ Rune.isSpace first = true := by
    simpa [Rune.isBlank] using hf
  have hsplit : Rune.isSplit first = false := isSplit_of_isBlank hf
  rw [lexeme, hsplit, if_neg Bool.false_ne_true] at h
  split at h
  · rw [List.mem_singleton] at h
    rw [h]
    exact hf
  · next hn =>
      rw [not_or] at hn
      rw [if_pos (hb.resolve_left hn.1)] at h
      have hs := mem_takeWhile_imp h
      rw [Rune.isBlank, hs, Bool.or_true]

end Runes

namespace FragmentReader

/-- The reader has the text `cs` ahead of it, starting at `p`, and holds no fragment. -/
structure Ahead (r : FragmentReader) (cs : List Char) (p : Position) : Prop where
  held : r.held = none
  cursor : r.cursor = p
  runes : ∃ later, r.feed = .runes later ∧ r.pending ++ later = cs

variable {r : FragmentReader} {cs : List Char} {p : Position}

theorem ahead_ofFeed (cs : List Char) : (ofFeed (.runes cs)).Ahead cs .start :=
  ⟨rfl, rfl, cs, rfl, rfl⟩

/-! ## The primitive steps -/

theorem lookAhead_ahead (h : r.Ahead cs p) {n : Nat} (hn : n ≤ r.pending.length) :
    ∃ s, lookAhead n r = .ok cs[n]? s ∧ s.Ahead cs p ∧
      (n < cs.length → n < s.pending.length) := by
  obtain ⟨hheld, hcursor, later, hfeed, hcs⟩ := h
  unfold lookAhead
  cases hp : r.pending[n]? with
  | some c =>
      have hlt : n < r.pending.length := (List.getElem?_eq_some_iff.mp hp).choose
      refine ⟨r, ?_, ⟨hheld, hcursor, later, hfeed, hcs⟩, fun _ => hlt⟩
      rw [← hcs, List.getElem?_append_left hlt, hp]
  | none =>
      have hlen : n = r.pending.length := by
        have := List.getElem?_eq_none_iff.mp hp
        omega
      cases later with
      | nil =>
          rw [List.append_nil] at hcs
          rw [hfeed, ← hcs, hp]
          refine ⟨_, rfl, ⟨hheld, hcursor, [], rfl, List.append_nil _⟩, fun hlt => ?_⟩
          exact absurd hlt (by omega)
      | cons c later =>
          have hc : cs[n]? = some c := by
            rw [← hcs, List.getElem?_append_right (by omega), hlen, Nat.sub_self]
            rfl
          rw [hfeed, hc]
          refine ⟨_, rfl, ⟨hheld, hcursor, later, rfl, ?_⟩, fun _ => ?_⟩
          · rw [List.append_assoc]; exact hcs
          · show n < (r.pending ++ [c]).length
            rw [List.length_append, hlen]
            exact Nat.lt_succ_self _

theorem takeRunes_ahead (h : r.Ahead cs p) {n : Nat} (hn : n ≤ r.pending.length) :
    ∃ s, takeRunes n r = .ok (cs.take n) s ∧ s.Ahead (cs.drop n) (p.advance (cs.take n)) := by
  obtain ⟨hheld, hcursor, later, hfeed, hcs⟩ := h
  have ht : cs.take n = r.pending.take n := by rw [← hcs, List.take_append_of_le_length hn]
  have hd : cs.drop n = r.pending.drop n ++ later := by
    rw [← hcs, List.drop_append_of_le_length hn]
  rw [ht, hd]
  exact ⟨_, rfl, hheld, by rw [← hcursor], later, hfeed, rfl⟩

theorem longestOperator_ahead {op ahead : List Char} (h : r.Ahead (op ++ ahead) p) (n : Nat)
    (hn : op.length ≤ r.pending.length) :
    ∃ s, longestOperator n op r = .ok (Runes.operator n op ahead) s ∧
      s.Ahead (op ++ ahead) p ∧ (Runes.operator n op ahead).length ≤ s.pending.length := by
  induction n generalizing op ahead r with
  | zero => exact ⟨r, rfl, h, hn⟩
  | succ n ih =>
      unfold longestOperator
      split
      · next he =>
          have hop : Runes.operator (n + 1) op ahead = op := by
            cases ahead with
            | nil => rfl
            | cons c ahead =>
                rw [Runes.operator, if_neg]
                rw [List.isEmpty_iff.mp he]
                exact List.not_mem_nil
          rw [hop]
          exact ⟨r, rfl, h, hn⟩
      · obtain ⟨s, hl, hs, hlt⟩ := lookAhead_ahead h hn
        simp only [bind, EStateM.bind, hl]
        rw [List.getElem?_append_right (Nat.le_refl _), Nat.sub_self]
        cases ahead with
        | nil =>
            obtain ⟨more, hm⟩ := pending_lookAhead hl
            refine ⟨s, rfl, hs, ?_⟩
            rw [hm, List.length_append]
            exact Nat.le_trans hn (Nat.le_add_right _ _)
        | cons c ahead =>
            have hpend := hlt (by rw [List.length_append, List.length_cons]; omega)
            simp only [List.getElem?_cons_zero]
            rw [Runes.operator]
            split
            · have hs' : s.Ahead ((op ++ [c]) ++ ahead) p := by
                rw [List.append_assoc]; exact hs
              have hlen : (op ++ [c]).length ≤ s.pending.length := by
                rw [List.length_append]
                exact hpend
              obtain ⟨t, ht, ha, hle⟩ := ih hs' hlen
              rw [List.append_assoc] at ha
              exact ⟨t, ht, ha, hle⟩
            · exact ⟨s, rfl, hs, Nat.le_of_lt hpend⟩

theorem takeWhile_ahead (h : r.Ahead cs p) (fits : Char → Bool) :
    ∃ s, takeWhile fits r = .ok (cs.takeWhile fits) s ∧
      s.Ahead (cs.dropWhile fits) (p.advance (cs.takeWhile fits)) := by
  induction cs generalizing r p with
  | nil =>
      obtain ⟨s, hl, hs, -⟩ := lookAhead_ahead h (Nat.zero_le _)
      refine ⟨s, ?_, hs⟩
      unfold takeWhile
      split
      · next hl' => cases hl.symm.trans hl'
      · next hl' => cases hl.symm.trans hl'; rfl
      · next hl' => cases hl.symm.trans hl'
  | cons c cs ih =>
      obtain ⟨s, hl, hs, hlt⟩ := lookAhead_ahead h (Nat.zero_le _)
      obtain ⟨more, hm⟩ := head_lookAhead hl
      rw [takeWhile.eq_def]
      split
      · next hl' => cases hl.symm.trans hl'
      · next hl' => cases hl.symm.trans hl'
      · next d t hl' =>
          cases hl.symm.trans hl'
          obtain ⟨hheld, hcursor, later, hfeed, hcs⟩ := hs
          rw [hm, List.cons_append, List.cons.injEq] at hcs
          rw [List.takeWhile_cons, List.dropWhile_cons]
          split
          · next hf =>
              have hs' : FragmentReader.Ahead
                  { s with pending := s.pending.tail, cursor := s.cursor.after c }
                  cs (p.after c) :=
                ⟨hheld, by rw [← hcursor], later, hfeed, by rw [hm]; exact hcs.2⟩
              obtain ⟨u, hu, ha⟩ := ih hs'
              rw [hu]
              exact ⟨u, rfl, ha⟩
          · exact ⟨s, rfl, hheld, hcursor, later, hfeed, by
              rw [hm, List.cons_append, hcs.2]⟩

/-! ## Fragments -/

theorem lexeme_ahead {first : Char} {rest : List Char} (h : r.Ahead (first :: rest) p)
    (hp : 0 < r.pending.length) :
    ∃ s, lexeme first r = .ok (Runes.lexeme (first :: rest)) s ∧
      s.Ahead (Runes.afterLexeme (first :: rest))
        (p.advance (Runes.lexeme (first :: rest))) := by
  have hwhile : ∀ fits : Char → Bool,
      Runes.lexeme (first :: rest) = (first :: rest).takeWhile fits →
      ∃ s, takeWhile fits r = .ok (Runes.lexeme (first :: rest)) s ∧
        s.Ahead (Runes.afterLexeme (first :: rest))
          (p.advance (Runes.lexeme (first :: rest))) := by
    intro fits hx
    have hd : Runes.afterLexeme (first :: rest) = (first :: rest).dropWhile fits := by
      have hsplit := Runes.lexeme_append_afterLexeme (first :: rest)
      rw [hx] at hsplit
      exact List.append_cancel_left (hsplit.trans List.takeWhile_append_dropWhile.symm)
    rw [hd, hx]
    exact takeWhile_ahead h fits
  have htake : ∀ n, (Runes.lexeme (first :: rest)).length = n → ∀ {s : FragmentReader},
      s.Ahead (first :: rest) p → n ≤ s.pending.length →
      ∃ t, takeRunes n s = .ok (Runes.lexeme (first :: rest)) t ∧
        t.Ahead (Runes.afterLexeme (first :: rest))
          (p.advance (Runes.lexeme (first :: rest))) := by
    intro n hx s hs hle
    have ht : (first :: rest).take n = Runes.lexeme (first :: rest) := by
      rw [← hx]
      exact (List.prefix_iff_eq_take.mp (Runes.isPrefix_lexeme _)).symm
    have hd : (first :: rest).drop n = Runes.afterLexeme (first :: rest) := by
      rw [← hx, Runes.afterLexeme]
    have hr := takeRunes_ahead hs hle
    rwa [ht, hd] at hr
  unfold lexeme
  by_cases hsplit : Rune.isSplit first = true
  · have hop : Runes.operator 3 [first] rest = Runes.lexeme (first :: rest) := by
      rw [Runes.lexeme, if_pos hsplit]
    have h' : r.Ahead ([first] ++ rest) p := h
    obtain ⟨s, hl, hs, hle⟩ := longestOperator_ahead h' 3 hp
    rw [hop] at hl hle
    rw [if_pos hsplit, hl]
    exact htake _ rfl hs hle
  · rw [if_neg hsplit]
    by_cases hone : first = '\n' ∨ first = '.'
    · have hx : Runes.lexeme (first :: rest) = [first] := by
        rw [Runes.lexeme, if_neg hsplit, if_pos hone]
      rw [if_pos hone]
      exact htake 1 (by rw [hx]; rfl) h hp
    · rw [if_neg hone]
      by_cases hspace : Rune.isSpace first = true
      · rw [if_pos hspace]
        refine hwhile _ ?_
        rw [Runes.lexeme, if_neg hsplit, if_neg hone, if_pos hspace]
      · rw [if_neg hspace]
        refine hwhile _ ?_
        rw [Runes.lexeme, if_neg hsplit, if_neg hone, if_neg hspace]

/-- At the end of a text nothing is cut off. -/
theorem cut_nil (h : r.Ahead [] p) : ∃ s, cut r = .ok none s ∧ s.Ahead [] p := by
  obtain ⟨s, hl, hs, -⟩ := lookAhead_ahead h (Nat.zero_le _)
  refine ⟨s, ?_, hs⟩
  unfold cut
  rw [hl]
  rfl

/-- Elsewhere the fragment that the text starts with is cut off. -/
theorem cut_cons (h : r.Ahead cs p) (hne : cs ≠ []) :
    ∃ s, cut r = .ok (some ⟨p, Runes.lexeme cs⟩) s ∧
      s.Ahead (Runes.afterLexeme cs) (p.advance (Runes.lexeme cs)) := by
  cases cs with
  | nil => exact absurd rfl hne
  | cons first rest =>
      obtain ⟨s, hl, hs, hlt⟩ := lookAhead_ahead h (Nat.zero_le _)
      obtain ⟨t, ht, ha⟩ := lexeme_ahead hs (hlt (Nat.succ_pos _))
      refine ⟨t, ?_, ha⟩
      unfold cut
      rw [hl]
      dsimp only [List.getElem?_cons_zero]
      rw [ht, hs.cursor]

/-! ## Looking at a fragment -/

/-- The reader stands at the text `cs`, which starts at `p`; it may have looked at the
first fragment already. -/
def Stands (r : FragmentReader) (cs : List Char) (p : Position) : Prop :=
  r.Ahead cs p ∨
    cs ≠ [] ∧ r.held = some ⟨p, Runes.lexeme cs⟩ ∧
      FragmentReader.Ahead { r with held := none } (Runes.afterLexeme cs)
        (p.advance (Runes.lexeme cs))

theorem Stands.position_eq (h : r.Stands cs p) : r.position = p := by
  rcases h with h | ⟨-, hheld, -⟩
  · rw [position, h.held]
    exact h.cursor
  · rw [position, hheld]

theorem next_nil (h : r.Stands [] p) : ∃ s, next r = .ok none s ∧ s.Stands [] p := by
  rcases h with h | ⟨hne, -⟩
  · obtain ⟨s, hc, hs⟩ := cut_nil h
    refine ⟨s, ?_, .inl hs⟩
    rw [next, h.held]
    exact hc
  · exact absurd rfl hne

theorem next_cons (h : r.Stands cs p) (hne : cs ≠ []) :
    ∃ s, next r = .ok (some ⟨p, Runes.lexeme cs⟩) s ∧
      s.Ahead (Runes.afterLexeme cs) (p.advance (Runes.lexeme cs)) := by
  rcases h with h | ⟨-, hheld, ha⟩
  · obtain ⟨s, hc, hs⟩ := cut_cons h hne
    refine ⟨s, ?_, hs⟩
    rw [next, h.held]
    exact hc
  · refine ⟨_, ?_, ha⟩
    rw [next, hheld]

theorem peek_nil (h : r.Stands [] p) : ∃ s, peek r = .ok none s ∧ s.Stands [] p := by
  rcases h with h | ⟨hne, -⟩
  · obtain ⟨s, hc, hs⟩ := cut_nil h
    refine ⟨{ s with held := none }, ?_, .inl ⟨rfl, hs.cursor, hs.runes⟩⟩
    rw [peek, h.held]
    dsimp only
    rw [hc]
  · exact absurd rfl hne

/-- The fragment that was looked at is held. -/
theorem peek_cons (h : r.Stands cs p) (hne : cs ≠ []) :
    ∃ s, peek r = .ok (some ⟨p, Runes.lexeme cs⟩) s ∧ s.Stands cs p ∧
      FragmentReader.Ahead { s with held := none } (Runes.afterLexeme cs)
        (p.advance (Runes.lexeme cs)) := by
  rcases h with h | ⟨-, hheld, ha⟩
  · obtain ⟨s, hc, hs⟩ := cut_cons h hne
    have ha : FragmentReader.Ahead { s with held := none } (Runes.afterLexeme cs)
        (p.advance (Runes.lexeme cs)) := ⟨rfl, hs.cursor, hs.runes⟩
    refine ⟨{ s with held := some ⟨p, Runes.lexeme cs⟩ }, ?_, .inr ⟨hne, rfl, ha⟩, ha⟩
    rw [peek, h.held]
    dsimp only
    rw [hc]
  · refine ⟨r, ?_, .inr ⟨hne, hheld, ha⟩, ha⟩
    rw [peek, hheld]

end FragmentReader

end SoliditySource
