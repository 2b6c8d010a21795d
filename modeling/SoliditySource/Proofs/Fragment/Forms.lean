import SoliditySource.Proofs.Fragment.Runes
import SoliditySource.Token.Spelling

/-! # The forms of fragments

A fragment is a mark, a newline, a period, a run of white space, or a word. Each form says what
the runes are, and that the fragment could not be longer. Marks are looked up in the table of
spellings: of those that a text starts with, the longest one is meant. The extensions by which
operators are found rune by rune lead to this one (`operator_longest`). So a fragment is the only
piece at its place that has a form (`HasForm.lexeme_eq`), and it has one (`hasForm_lexeme`).
-/

namespace SoliditySource

/-- The forms that fragments have. -/
inductive Fragment.Form where
  | mark
  | newline
  | period
  | space
  | word
  deriving DecidableEq, Repr

/-- The form of the fragments that start with a rune. -/
def Fragment.Form.of (first : Char) : Form :=
  if Rune.isSplit first then mark
  else if first = '\n' then newline
  else if first = '.' then period
  else if Rune.isSpace first then space
  else word

/-- Holds when a word that starts with `first` may go on with `c`. -/
def Rune.continues (first c : Char) : Bool := isWord c && (c ≠ '.' || first.isDigit)

namespace Runes

/-! ## Operators -/

/-- The fixed spellings that start with a split symbol. -/
def operators : List (List Char) :=
  (TokenKind.spellings.map fun entry => entry.1.toList).filter fun text =>
    text.head?.any Rune.isSplit

/-- An operator, or a split symbol by itself. -/
def IsMark (text : List Char) : Prop :=
  text ∈ operators ∨ ∃ c, Rune.isSplit c = true ∧ text = [c]

/-- Operators are short, are made of split symbols, and are reached through extensions. -/
theorem operators_spec : ∀ op ∈ operators, op.length ≤ 4 ∧ op.all Rune.isSplit = true ∧
    ∀ n < op.length, n ≠ 0 → op[n]?.all (fun c => c ∈ Rune.extensions (op.take n)) = true := by
  decide +kernel

/-- The operators that have extensions. -/
def extendable : List (List Char) :=
  [['='], ['-'], ['|'], ['^'], ['&'], ['+'], ['*'], ['/'], ['%'], ['!'], ['<'], ['>'], ['<', '<'],
    ['>', '>'], ['>', '>', '>']]

theorem mem_extendable {op : List Char} (h : Rune.extensions op ≠ []) : op ∈ extendable := by
  unfold Rune.extensions at h
  split at h
  case h_16 => exact absurd rfl h
  all_goals decide

theorem extensions_extendable : ∀ op ∈ extendable,
    (Rune.extensions op).all (fun c => op ++ [c] ∈ operators) = true := by
  decide +kernel

/-- What extends an operator makes it into an operator. -/
theorem mem_operators_of_extension {op : List Char} {c : Char} (h : c ∈ Rune.extensions op) :
    op ++ [c] ∈ operators :=
  of_decide_eq_true (List.all_eq_true.mp
    (extensions_extendable op (mem_extendable (List.ne_nil_of_mem h))) c h)

theorem IsMark.length_le {text : List Char} (h : IsMark text) : text.length ≤ 4 := by
  obtain h | ⟨c, -, rfl⟩ := h
  · exact (operators_spec text h).1
  · simp

theorem IsMark.isSplit {text : List Char} (h : IsMark text) :
    ∀ c ∈ text, Rune.isSplit c = true := by
  obtain h | ⟨d, hd, rfl⟩ := h
  · exact List.all_eq_true.mp (operators_spec text h).2.1
  · simpa using hd

/-- A mark goes on with an extension of what comes before. -/
theorem IsMark.mem_extensions {op more : List Char} {c : Char} (h : IsMark (op ++ c :: more))
    (hop : op ≠ []) : c ∈ Rune.extensions op := by
  have hpos := List.length_pos_iff.mpr hop
  obtain h | ⟨d, -, hd⟩ := h
  · have hstep := (operators_spec _ h).2.2 op.length (by simp) (Nat.ne_of_gt hpos)
    simpa using hstep
  · have hlen := congrArg List.length hd
    simp only [List.length_append, List.length_cons, List.length_nil] at hlen
    omega

theorem isMark_operator (n : Nat) {op : List Char} (h : IsMark op) (ahead : List Char) :
    IsMark (operator n op ahead) := by
  induction n generalizing op ahead with
  | zero => exact h
  | succ n ih =>
      cases ahead with
      | nil => exact h
      | cons c ahead =>
          rw [operator]
          split
          · next hc => exact ih (.inl (mem_operators_of_extension hc)) ahead
          · exact h

/-- No mark in front of the text is longer than the operator that is found, if there are enough
steps to go on. By induction on the steps: a longer mark goes on with an extension. -/
theorem length_le_operator {n : Nat} {op ahead longer : List Char} (hop : op ≠ [])
    (hmark : IsMark longer) (hfront : op <+: longer) (hahead : longer <+: op ++ ahead)
    (hlen : longer.length ≤ op.length + n) : longer.length ≤ (operator n op ahead).length := by
  induction n generalizing op ahead with
  | zero => exact hlen
  | succ n ih =>
      obtain ⟨more, rfl⟩ := hfront
      have hmore : more <+: ahead := (List.prefix_append_right_inj op).mp hahead
      cases more with
      | nil =>
          obtain ⟨more, heq, -⟩ := operator_eq_append (n + 1) op ahead
          rw [heq, List.append_nil, List.length_append]
          exact Nat.le_add_right _ _
      | cons c more =>
          obtain ⟨rest, rfl⟩ := hmore
          have hc : c ∈ Rune.extensions op := hmark.mem_extensions hop
          rw [List.cons_append, operator, if_pos hc]
          refine ih (by simp) ⟨more, by simp⟩ (by simp) ?_
          simp only [List.length_append, List.length_cons, List.length_nil] at hlen ⊢
          omega

/-- The operator that is found in front of a text is the longest mark there. -/
theorem operator_longest {first : Char} (h : Rune.isSplit first = true) (rest : List Char) :
    IsMark (operator 3 [first] rest) ∧ ∀ longer, IsMark longer → longer <+: first :: rest →
      longer.length ≤ (operator 3 [first] rest).length := by
  have hfirst : IsMark [first] := .inr ⟨first, h, rfl⟩
  refine ⟨isMark_operator 3 hfirst rest, fun longer hmark hprefix => ?_⟩
  cases longer with
  | nil => exact Nat.zero_le _
  | cons c longer =>
      obtain ⟨rfl, hlonger⟩ := List.cons_prefix_cons.mp hprefix
      have hlen : (c :: longer).length ≤ [c].length + 3 := by
        have := hmark.length_le
        simpa using this
      exact length_le_operator (List.cons_ne_nil _ _) hmark ⟨longer, rfl⟩ hprefix hlen

/-! ## Forms -/

/-- The piece has the form in front of `rest`: it is made as the form says, and it is cut off
neither too early nor too late. -/
inductive HasForm : Fragment.Form → (piece rest : List Char) → Prop where
  | mark {piece rest : List Char} (hmark : IsMark piece)
      (hlongest : ∀ longer, IsMark longer → longer <+: piece ++ rest →
        longer.length ≤ piece.length) : HasForm .mark piece rest
  | newline (rest : List Char) : HasForm .newline ['\n'] rest
  | period (rest : List Char) : HasForm .period ['.'] rest
  | space {piece rest : List Char} (hne : piece ≠ []) (hall : ∀ c ∈ piece, Rune.isSpace c = true)
      (hend : ∀ c ∈ rest.head?, Rune.isSpace c = false) : HasForm .space piece rest
  | word {first : Char} {more rest : List Char}
      (hall : ∀ c ∈ first :: more, Rune.continues first c = true)
      (hend : ∀ c ∈ rest.head?, Rune.continues first c = false) : HasForm .word (first :: more) rest

theorem afterLexeme_of_takeWhile {fits : Char → Bool} {cs : List Char}
    (h : lexeme cs = cs.takeWhile fits) : afterLexeme cs = cs.dropWhile fits := by
  have hsplit := lexeme_append_afterLexeme cs
  rw [h] at hsplit
  exact List.append_cancel_left (hsplit.trans List.takeWhile_append_dropWhile.symm)

theorem not_head?_dropWhile {fits : Char → Bool} {cs : List Char} :
    ∀ c ∈ (cs.dropWhile fits).head?, fits c = false := by
  intro c hc
  have h := List.head?_dropWhile_not fits cs
  rw [Option.mem_def.mp hc] at h
  exact h

theorem continues_self {first : Char} (hsplit : Rune.isSplit first = false)
    (hline : first ≠ '\n') (hperiod : first ≠ '.') (hspace : Rune.isSpace first = false) :
    Rune.continues first first = true := by
  simp [Rune.continues, Rune.isWord, hsplit, hline, hperiod, hspace]

/-- The fragment in front of a text has the form that its first rune tells. -/
theorem hasForm_lexeme (first : Char) (rest : List Char) :
    HasForm (.of first) (lexeme (first :: rest)) (afterLexeme (first :: rest)) := by
  have happend := lexeme_append_afterLexeme (first :: rest)
  unfold Fragment.Form.of
  by_cases hsplit : Rune.isSplit first = true
  · have hlexeme : lexeme (first :: rest) = operator 3 [first] rest := by
      rw [lexeme, if_pos hsplit]
    obtain ⟨hmark, hlongest⟩ := operator_longest hsplit rest
    rw [← hlexeme] at hmark hlongest
    rw [if_pos hsplit]
    exact .mark hmark fun longer hm hp => hlongest longer hm (happend ▸ hp)
  rw [if_neg hsplit]
  by_cases hline : first = '\n'
  · subst hline
    exact .newline _
  rw [if_neg hline]
  by_cases hperiod : first = '.'
  · subst hperiod
    exact .period _
  rw [if_neg hperiod]
  have hone : ¬ (first = '\n' ∨ first = '.') := not_or.mpr ⟨hline, hperiod⟩
  by_cases hspace : Rune.isSpace first = true
  · have hlexeme : lexeme (first :: rest) = (first :: rest).takeWhile Rune.isSpace := by
      rw [lexeme, if_neg hsplit, if_neg hone, if_pos hspace]
    rw [if_pos hspace, afterLexeme_of_takeWhile hlexeme]
    refine .space (lexeme_ne_nil (List.cons_ne_nil _ _)) ?_ not_head?_dropWhile
    rw [hlexeme]
    exact fun c hc => mem_takeWhile_imp hc
  · have hlexeme :
        lexeme (first :: rest) = (first :: rest).takeWhile (Rune.continues first) := by
      rw [lexeme, if_neg hsplit, if_neg hone, if_neg hspace]
      rfl
    have hfirst : Rune.continues first first = true :=
      continues_self (by simpa using hsplit) hline hperiod (by simpa using hspace)
    have hcons : (first :: rest).takeWhile (Rune.continues first) =
        first :: rest.takeWhile (Rune.continues first) := by
      rw [List.takeWhile_cons, if_pos hfirst]
    rw [if_neg hspace, afterLexeme_of_takeWhile hlexeme, hlexeme]
    have hall : ∀ c ∈ (first :: rest).takeWhile (Rune.continues first),
        Rune.continues first c = true := fun c hc => mem_takeWhile_imp hc
    rw [hcons] at hall ⊢
    exact .word hall not_head?_dropWhile

/-- The period ends a word, unless a digit starts it; operators are as long as can be. -/
example : lexeme "a.5".toList = "a".toList ∧ lexeme "1..x\r\n".toList = "1..x".toList ∧
    lexeme ">>>>=".toList = ">>>".toList := by
  decide

theorem HasForm.exists_cons {form : Fragment.Form} {piece rest : List Char}
    (h : HasForm form piece rest) : ∃ first more, piece = first :: more := by
  refine List.exists_cons_of_ne_nil ?_
  cases h with
  | mark hmark =>
      obtain hmark | ⟨c, -, rfl⟩ := hmark
      · rintro rfl
        simp [operators] at hmark
      · exact List.cons_ne_nil _ _
  | newline => exact List.cons_ne_nil _ _
  | period => exact List.cons_ne_nil _ _
  | space hne => exact hne
  | word => exact List.cons_ne_nil _ _

/-- A fragment that starts with a split symbol is made of split symbols, and any other fragment
holds none. -/
theorem HasForm.isSplit_eq {form : Fragment.Form} {first : Char} {more rest : List Char}
    (h : HasForm form (first :: more) rest) {c : Char} (hc : c ∈ first :: more) :
    Rune.isSplit c = Rune.isSplit first := by
  cases h with
  | mark hmark => rw [hmark.isSplit c hc, hmark.isSplit first List.mem_cons_self]
  | newline => rw [List.mem_singleton.mp hc]
  | period => rw [List.mem_singleton.mp hc]
  | space _ hall =>
      have hblank : ∀ d ∈ first :: more, Rune.isSplit d = false := fun d hd =>
        isSplit_of_isBlank (by simp [Rune.isBlank, hall d hd])
      rw [hblank c hc, hblank first List.mem_cons_self]
  | word hall =>
      have hword : ∀ d ∈ first :: more, Rune.isSplit d = false := by
        intro d hd
        have h := hall d hd
        simp only [Rune.continues, Rune.isWord, Bool.and_eq_true, Bool.not_eq_true'] at h
        exact h.1.1.2
      rw [hword c hc, hword first List.mem_cons_self]

theorem takeWhile_append_self {fits : Char → Bool} {piece rest : List Char}
    (hall : ∀ c ∈ piece, fits c = true) (hend : ∀ c ∈ rest.head?, fits c = false) :
    (piece ++ rest).takeWhile fits = piece := by
  rw [List.takeWhile_append_of_pos hall, List.append_right_eq_self]
  cases rest with
  | nil => rfl
  | cons c rest => exact List.takeWhile_cons_of_neg (by simp [hend c rfl])

/-- A piece that has a form is the fragment in front of the text, and its first rune tells the
form. -/
theorem HasForm.lexeme_eq {form : Fragment.Form} {first : Char} {more rest : List Char}
    (h : HasForm form (first :: more) rest) :
    form = .of first ∧ lexeme (first :: (more ++ rest)) = first :: more := by
  unfold Fragment.Form.of
  cases h with
  | mark hmark hlongest =>
      have hsplit : Rune.isSplit first = true := hmark.isSplit first List.mem_cons_self
      obtain ⟨hfound, hmax⟩ := operator_longest hsplit (more ++ rest)
      have hlexeme : lexeme (first :: (more ++ rest)) = operator 3 [first] (more ++ rest) := by
        rw [lexeme, if_pos hsplit]
      have hprefix := isPrefix_lexeme (first :: (more ++ rest))
      rw [hlexeme] at hprefix
      have hle := hmax _ hmark (List.prefix_append (first :: more) rest)
      have hge := hlongest _ hfound hprefix
      have hsame := List.prefix_of_prefix_length_le hprefix
        (List.prefix_append (first :: more) rest) hge
      rw [if_pos hsplit, hlexeme]
      exact ⟨rfl, hsame.eq_of_length (Nat.le_antisymm hge hle)⟩
  | newline => exact ⟨by decide, rfl⟩
  | period => exact ⟨by decide, rfl⟩
  | space _ hall hend =>
      have hspace : Rune.isSpace first = true := hall first List.mem_cons_self
      have hblank : Rune.isBlank first = true := by simp [Rune.isBlank, hspace]
      have hsplit : ¬ Rune.isSplit first = true := by simp [isSplit_of_isBlank hblank]
      have hline : first ≠ '\n' := by
        rintro rfl
        revert hspace
        decide
      have hperiod : first ≠ '.' := by
        rintro rfl
        revert hspace
        decide
      rw [if_neg hsplit, if_neg hline, if_neg hperiod, if_pos hspace]
      refine ⟨rfl, ?_⟩
      rw [lexeme, if_neg hsplit, if_neg (not_or.mpr ⟨hline, hperiod⟩), if_pos hspace]
      exact takeWhile_append_self hall hend
  | word hall hend =>
      have hfirst : Rune.continues first first = true := hall first List.mem_cons_self
      simp only [Rune.continues, Rune.isWord, Bool.and_eq_true, Bool.or_eq_true,
        Bool.not_eq_true', decide_eq_true_eq] at hfirst
      obtain ⟨⟨⟨hline, hsplit⟩, hspace⟩, hdot⟩ := hfirst
      have hperiod : first ≠ '.' := by
        rintro rfl
        revert hdot
        decide
      rw [hsplit, hspace, if_neg Bool.false_ne_true, if_neg hline, if_neg hperiod,
        if_neg Bool.false_ne_true]
      refine ⟨rfl, ?_⟩
      rw [lexeme, hsplit, hspace, if_neg Bool.false_ne_true,
        if_neg (not_or.mpr ⟨hline, hperiod⟩), if_neg Bool.false_ne_true]
      exact takeWhile_append_self hall hend

end Runes

end SoliditySource
