import SoliditySource.Proofs.Fragment.Runes
import SoliditySource.Token.Reader

/-! # Blanks and literals in a text

Blank fragments are dropped as if blank runes were dropped one by one, and a literal
closes where the first unescaped quote of its sort stands: no other fragment than the
quote itself, and the one right after a backslash, can hold such a rune.
-/

namespace SoliditySource

namespace Runes

/-- The rest of a literal that `quote` opened, up to and with the quote that closes it. -/
def closing (quote : Char) : List Char → Option (List Char)
  | [] => none
  | c :: cs =>
      if c = '\\' then
        match cs with
        | [] => none
        | d :: ds => (closing quote ds).map fun text => c :: d :: text
      else if c = quote then some [c]
      else (closing quote cs).map fun text => c :: text

theorem isPrefix_closing {quote : Char} {cs body : List Char} (h : closing quote cs = some body) :
    body <+: cs := by
  fun_induction closing quote cs generalizing body with
  | case1 => cases h
  | case2 => cases h
  | case3 d ds ih =>
      obtain ⟨text, ht, rfl⟩ := Option.map_eq_some_iff.mp h
      exact (List.prefix_cons_inj _).mpr ((List.prefix_cons_inj d).mpr (ih ht))
  | case4 cs hb =>
      cases h
      exact (List.prefix_cons_inj _).mpr List.nil_prefix
  | case5 c cs hb hq ih =>
      obtain ⟨text, ht, rfl⟩ := Option.map_eq_some_iff.mp h
      exact (List.prefix_cons_inj c).mpr (ih ht)

/-- Runes that neither close a literal nor escape another rune are passed over. -/
theorem closing_append {quote : Char} {text : List Char}
    (h : ∀ c ∈ text, c ≠ '\\' ∧ c ≠ quote) (rest : List Char) :
    closing quote (text ++ rest) = (closing quote rest).map fun body => text ++ body := by
  induction text with
  | nil => cases hc : closing quote rest <;> simp [hc]
  | cons c text ih =>
      obtain ⟨hb, hq⟩ := h c List.mem_cons_self
      rw [List.cons_append, closing.eq_def]
      dsimp only
      rw [if_neg hb, if_neg hq, ih fun d hd => h d (List.mem_cons_of_mem c hd), Option.map_map]
      rfl

end Runes

namespace FragmentReader

variable {r : FragmentReader} {cs : List Char} {p : Position}

/-! ## Kinds of fragments -/

theorem isBackslash_lexeme (p : Position) (first : Char) (rest : List Char) :
    Fragment.isBackslash ⟨p, Runes.lexeme (first :: rest)⟩ = true ↔ first = '\\' := by
  have hh := Runes.head?_lexeme (first :: rest)
  rw [Fragment.isBackslash, decide_eq_true_iff]
  constructor
  · intro h
    have h : Runes.lexeme (first :: rest) = ['\\'] := h
    rw [h] at hh
    cases hh
    rfl
  · rintro rfl
    exact Runes.lexeme_of_special (.inr rfl) rest

theorem lexeme_eq_quote_iff {quote : Char} (hq : Rune.isQuote quote = true) (first : Char)
    (rest : List Char) : Runes.lexeme (first :: rest) = [quote] ↔ first = quote := by
  have hh := Runes.head?_lexeme (first :: rest)
  constructor
  · intro h
    rw [h] at hh
    cases hh
    rfl
  · rintro rfl
    exact Runes.lexeme_of_special (.inl hq) rest

theorem isQuote_lexeme (p : Position) (first : Char) (rest : List Char) :
    Fragment.isQuote ⟨p, Runes.lexeme (first :: rest)⟩ = Rune.isQuote first := by
  have hh := Runes.head?_lexeme (first :: rest)
  by_cases hq : Rune.isQuote first = true
  · rw [Runes.lexeme_of_special (.inl hq)]
    rfl
  · have hq : Rune.isQuote first = false := by simpa using hq
    rw [hq, Fragment.isQuote]
    split
    · next c hc =>
        have hc : Runes.lexeme (first :: rest) = [c] := hc
        rw [hc] at hh
        cases hh
        exact hq
    · rfl

theorem isBlank_lexeme (p : Position) (first : Char) (rest : List Char) :
    Fragment.isBlank ⟨p, Runes.lexeme (first :: rest)⟩ = Rune.isBlank first := by
  have hh := Runes.head?_lexeme (first :: rest)
  have hspace : Fragment.isSpace ⟨p, Runes.lexeme (first :: rest)⟩ = Rune.isSpace first := by
    rw [Fragment.isSpace, hh]
    rfl
  have hline : Fragment.isNewline ⟨p, Runes.lexeme (first :: rest)⟩ = decide (first = '\n') := by
    rw [Fragment.isNewline, decide_eq_decide]
    constructor
    · intro h
      have h : Runes.lexeme (first :: rest) = ['\n'] := h
      rw [h] at hh
      cases hh
      rfl
    · rintro rfl
      rfl
  rw [Fragment.isBlank, hspace, hline, Rune.isBlank]

/-! ## Blanks -/

theorem dropWhile_afterLexeme {first : Char} (rest : List Char)
    (hb : Rune.isBlank first = true) :
    (Runes.afterLexeme (first :: rest)).dropWhile Rune.isBlank =
        (first :: rest).dropWhile Rune.isBlank ∧
      (first :: rest).takeWhile Rune.isBlank = Runes.lexeme (first :: rest) ++
        (Runes.afterLexeme (first :: rest)).takeWhile Rune.isBlank := by
  have hall : ∀ c ∈ Runes.lexeme (first :: rest), Rune.isBlank c = true :=
    fun c hc => Runes.isBlank_of_mem_lexeme hb hc
  have he := Runes.lexeme_append_afterLexeme (first :: rest)
  rw [← he, List.dropWhile_append_of_pos hall, List.takeWhile_append_of_pos hall, he]
  exact ⟨rfl, rfl⟩

/-- Where a reader that stands at `cs` finds the first fragment that is not blank. -/
theorem nextSolid_stands (h : r.Stands cs p) :
    let solid := cs.dropWhile Rune.isBlank
    let start := p.advance (cs.takeWhile Rune.isBlank)
    (solid = [] → ∃ s, nextSolid r = .ok none s ∧ s.Stands [] start) ∧
    (solid ≠ [] → ∃ s, nextSolid r = .ok (some ⟨start, Runes.lexeme solid⟩) s ∧
      s.Ahead (Runes.afterLexeme solid) (start.advance (Runes.lexeme solid))) := by
  induction hn : cs.length using Nat.strongRecOn generalizing r cs p with
  | _ n ih =>
      subst hn
      cases cs with
      | nil =>
          obtain ⟨s, hs, ha⟩ := next_nil h
          refine ⟨fun _ => ⟨s, ?_, ha⟩, fun hne => absurd rfl hne⟩
          rw [nextSolid.eq_def]
          split <;> rename_i hs' <;> cases hs.symm.trans hs'
          rfl
      | cons first rest =>
          obtain ⟨s, hs, ha⟩ := next_cons h (List.cons_ne_nil first rest)
          have hrun : nextSolid r =
              if Rune.isBlank first then nextSolid s
              else .ok (some ⟨p, Runes.lexeme (first :: rest)⟩) s := by
            rw [nextSolid.eq_def]
            split <;> rename_i hs' <;> cases hs.symm.trans hs'
            rw [isBlank_lexeme]
          rw [hrun]
          by_cases hb : Rune.isBlank first = true
          · obtain ⟨hd, ht⟩ := dropWhile_afterLexeme rest hb
            have hlt := Runes.length_afterLexeme (List.cons_ne_nil first rest)
            have hx := ih _ hlt (.inl ha) rfl
            rw [hd, ← Position.advance_append, ← ht] at hx
            rw [if_pos hb]
            exact hx
          · rw [if_neg hb, List.dropWhile_cons_of_neg hb, List.takeWhile_cons_of_neg hb]
            exact ⟨fun hnil => absurd hnil (List.cons_ne_nil _ _), fun _ => ⟨s, rfl, ha⟩⟩

theorem skipBlanks_stands (h : r.Stands cs p) :
    ∃ s, skipBlanks r = .ok () s ∧
      s.Stands (cs.dropWhile Rune.isBlank) (p.advance (cs.takeWhile Rune.isBlank)) := by
  induction hn : cs.length using Nat.strongRecOn generalizing r cs p with
  | _ n ih =>
      subst hn
      cases cs with
      | nil =>
          obtain ⟨s, hs, ha⟩ := peek_nil h
          refine ⟨s, ?_, ha⟩
          rw [skipBlanks.eq_def]
          split <;> rename_i hs' <;> cases hs.symm.trans hs'
          rfl
      | cons first rest =>
          obtain ⟨s, hs, hst, ha⟩ := peek_cons h (List.cons_ne_nil first rest)
          have hrun : skipBlanks r =
              if Rune.isBlank first then skipBlanks { s with held := none } else .ok () s := by
            rw [skipBlanks.eq_def]
            split <;> rename_i hs' <;> cases hs.symm.trans hs'
            rw [isBlank_lexeme]
          rw [hrun]
          by_cases hb : Rune.isBlank first = true
          · obtain ⟨hd, ht⟩ := dropWhile_afterLexeme rest hb
            have hlt := Runes.length_afterLexeme (List.cons_ne_nil first rest)
            have hx := ih _ hlt (.inl ha) rfl
            rw [hd, ← Position.advance_append, ← ht] at hx
            rw [if_pos hb]
            exact hx
          · rw [if_neg hb, List.dropWhile_cons_of_neg hb, List.takeWhile_cons_of_neg hb]
            exact ⟨s, rfl, hst⟩

/-! ## Literals -/

theorem nextQuoted_nil (h : r.Stands [] p) :
    ∃ s, nextQuoted r = .error (.refused ⟨p, .unclosedQuote⟩) s := by
  obtain ⟨s, hs, ha⟩ := next_nil h
  refine ⟨s, ?_⟩
  rw [nextQuoted, hs, ← ha.position_eq]

theorem nextQuoted_cons (h : r.Stands cs p) (hne : cs ≠ []) :
    ∃ s, nextQuoted r = .ok ⟨p, Runes.lexeme cs⟩ s ∧
      s.Ahead (Runes.afterLexeme cs) (p.advance (Runes.lexeme cs)) := by
  obtain ⟨s, hs, ha⟩ := next_cons h hne
  refine ⟨s, ?_, ha⟩
  rw [nextQuoted, hs]

/-- No rune of a fragment but its first one closes or escapes. -/
theorem tail_lexeme_plain {quote : Char} (hq : Rune.isQuote quote = true) (first : Char)
    (rest : List Char) :
    ∀ c ∈ (Runes.lexeme (first :: rest)).tail, c ≠ '\\' ∧ c ≠ quote := by
  intro c hc
  by_cases hf : Rune.isQuote first = true ∨ first = '\\'
  · rw [Runes.lexeme_of_special hf] at hc
    cases hc
  · have hm := List.mem_of_mem_tail hc
    refine ⟨?_, ?_⟩
    · rintro rfl
      exact Runes.not_mem_lexeme (.inr rfl) hf rest hm
    · rintro rfl
      exact Runes.not_mem_lexeme (.inl hq) hf rest hm

theorem lexeme_eq_cons_tail (first : Char) (rest : List Char) :
    Runes.lexeme (first :: rest) = first :: (Runes.lexeme (first :: rest)).tail := by
  have hh := Runes.head?_lexeme (first :: rest)
  cases hx : Runes.lexeme (first :: rest) with
  | nil => exact absurd hx (Runes.lexeme_ne_nil (List.cons_ne_nil _ _))
  | cons c text =>
      rw [hx] at hh
      cases hh
      rfl

/-- The answer `x` is the one for a literal that is opened by `quote` in front of `cs`. -/
def Closes (quote : Char) (cs : List Char) (p : Position)
    (x : EStateM.Result SourceError FragmentReader (List Char)) : Prop :=
  (∀ body, Runes.closing quote cs = some body →
    ∃ s, x = .ok body s ∧ s.Stands (cs.drop body.length) (p.advance body)) ∧
  (Runes.closing quote cs = none →
    ∃ s, x = .error (.refused ⟨p.advance cs, .unclosedQuote⟩) s)

/-- The answer with `text` in front. -/
def precede (text : List Char) :
    EStateM.Result SourceError FragmentReader (List Char) →
      EStateM.Result SourceError FragmentReader (List Char)
  | .ok body s => .ok (text ++ body) s
  | .error e s => .error e s

/-- What is passed over on the way to the closing quote stands before the rest of the
literal. -/
theorem Closes.append {quote : Char} {text rest : List Char}
    {x : EStateM.Result SourceError FragmentReader (List Char)}
    (hc : Runes.closing quote (text ++ rest) =
      (Runes.closing quote rest).map fun body => text ++ body)
    (h : Closes quote rest (p.advance text) x) :
    Closes quote (text ++ rest) p (precede text x) := by
  obtain ⟨hsome, hnone⟩ := h
  refine ⟨fun body hb => ?_, fun hn => ?_⟩
  · rw [hc] at hb
    obtain ⟨body', hb', rfl⟩ := Option.map_eq_some_iff.mp hb
    obtain ⟨s, rfl, hs⟩ := hsome body' hb'
    rw [← Position.advance_append] at hs
    rw [List.length_append, ← List.drop_drop, List.drop_left]
    exact ⟨s, rfl, hs⟩
  · rw [hc, Option.map_eq_none_iff] at hn
    obtain ⟨s, rfl⟩ := hnone hn
    rw [Position.advance_append]
    exact ⟨s, rfl⟩

/-- An escaped rune, with the fragment that it starts, is passed over. -/
theorem closing_escape {quote : Char} (hq : Rune.isQuote quote = true) (d : Char)
    (ds : List Char) :
    Runes.closing quote (('\\' :: Runes.lexeme (d :: ds)) ++ Runes.afterLexeme (d :: ds)) =
      (Runes.closing quote (Runes.afterLexeme (d :: ds))).map
        fun body => '\\' :: Runes.lexeme (d :: ds) ++ body := by
  rw [lexeme_eq_cons_tail d ds, List.cons_append, List.cons_append, Runes.closing.eq_def]
  dsimp only
  rw [if_pos rfl, Runes.closing_append (tail_lexeme_plain hq d ds), Option.map_map]
  rfl

/-- A fragment that neither escapes nor closes is passed over. -/
theorem closing_fragment {quote first : Char} (hq : Rune.isQuote quote = true)
    (hb : first ≠ '\\') (hc : first ≠ quote) (rest : List Char) :
    Runes.closing quote (Runes.lexeme (first :: rest) ++ Runes.afterLexeme (first :: rest)) =
      (Runes.closing quote (Runes.afterLexeme (first :: rest))).map
        fun body => Runes.lexeme (first :: rest) ++ body := by
  refine Runes.closing_append (fun c hm => ?_) _
  rw [lexeme_eq_cons_tail, List.mem_cons] at hm
  rcases hm with rfl | hm
  · exact ⟨hb, hc⟩
  · exact tail_lexeme_plain hq first rest c hm

theorem closeQuote_error {quote : List Char} {s : FragmentReader} {e : SourceError}
    (hs : nextQuoted r = .error e s) : closeQuote quote r = .error e s := by
  rw [closeQuote.eq_def]
  split <;> rename_i hs' <;> cases hs.symm.trans hs'
  rfl

theorem closeQuote_ok {quote : List Char} {f : Fragment} {s : FragmentReader}
    (hs : nextQuoted r = .ok f s) (hb : f.isBackslash = false) :
    closeQuote quote r =
      if f.text = quote then .ok f.text s else precede f.text (closeQuote quote s) := by
  rw [closeQuote.eq_def]
  split <;> rename_i hs' <;> cases hs.symm.trans hs'
  rw [hb]
  rfl

theorem closeQuote_escape {quote : List Char} {f g : Fragment} {s u : FragmentReader}
    (hs : nextQuoted r = .ok f s) (hb : f.isBackslash = true) (hu : nextQuoted s = .ok g u) :
    closeQuote quote r = precede (f.text ++ g.text) (closeQuote quote u) := by
  rw [closeQuote.eq_def]
  split <;> rename_i hs' <;> cases hs.symm.trans hs'
  rw [if_pos hb]
  split <;> rename_i hu' <;> cases hu.symm.trans hu'
  rfl

theorem closeQuote_escape_error {quote : List Char} {f : Fragment} {s u : FragmentReader}
    {e : SourceError} (hs : nextQuoted r = .ok f s) (hb : f.isBackslash = true)
    (hu : nextQuoted s = .error e u) : closeQuote quote r = .error e u := by
  rw [closeQuote.eq_def]
  split <;> rename_i hs' <;> cases hs.symm.trans hs'
  rw [if_pos hb]
  split <;> rename_i hu' <;> cases hu.symm.trans hu'
  rfl

/-- A literal is closed where its runes close it. -/
theorem closeQuote_stands {quote : Char} (hq : Rune.isQuote quote = true)
    (h : r.Stands cs p) : Closes quote cs p (closeQuote [quote] r) := by
  induction hn : cs.length using Nat.strongRecOn generalizing r cs p with
  | _ n ih =>
      subst hn
      by_cases hne : cs = []
      · subst hne
        obtain ⟨s, hs⟩ := nextQuoted_nil h
        exact ⟨fun body hb => by simp [Runes.closing] at hb, fun _ => ⟨s, closeQuote_error hs⟩⟩
      · obtain ⟨first, rest, rfl⟩ := List.exists_cons_of_ne_nil hne
        obtain ⟨s, hs, ha⟩ := nextQuoted_cons h hne
        have hlt := Runes.length_afterLexeme hne
        have happend := Runes.lexeme_append_afterLexeme (first :: rest)
        by_cases hb : first = '\\'
        · -- a backslash: the next fragment is taken as it is
          subst hb
          have hx : Runes.lexeme ('\\' :: rest) = ['\\'] := Runes.lexeme_of_special (.inr rfl) rest
          have hrest : Runes.afterLexeme ('\\' :: rest) = rest := by rw [Runes.afterLexeme, hx]; rfl
          have hescape := (isBackslash_lexeme p _ rest).mpr rfl
          rw [hx, hrest] at ha
          by_cases hne' : rest = []
          · subst hne'
            obtain ⟨t, ht⟩ := nextQuoted_nil (.inl ha)
            exact ⟨fun body hbody => by simp [Runes.closing] at hbody,
              fun _ => ⟨t, closeQuote_escape_error hs hescape ht⟩⟩
          · obtain ⟨d, ds, rfl⟩ := List.exists_cons_of_ne_nil hne'
            obtain ⟨t, ht, ha'⟩ := nextQuoted_cons (.inl ha) hne'
            have hlt' := Runes.length_afterLexeme hne'
            have happend' := Runes.lexeme_append_afterLexeme (d :: ds)
            rw [← Position.advance_append] at ha'
            have hcloses := ih _ (Nat.lt_trans hlt' (Nat.lt_succ_self _)) (.inl ha') rfl
            have hcloses := hcloses.append (closing_escape hq d ds)
            rw [List.cons_append, happend'] at hcloses
            rw [closeQuote_escape hs hescape ht, hx]
            exact hcloses
        · have hplain : Fragment.isBackslash ⟨p, Runes.lexeme (first :: rest)⟩ = false := by
            rw [← Bool.not_eq_true, isBackslash_lexeme]
            exact hb
          rw [closeQuote_ok hs hplain]
          by_cases hc : first = quote
          · -- the closing quote
            subst hc
            have hx : Runes.lexeme (first :: rest) = [first] := Runes.lexeme_of_special (.inl hq) rest
            have hcl : Runes.closing first (first :: rest) = some [first] := by
              rw [Runes.closing.eq_def]
              dsimp only
              rw [if_neg hb, if_pos rfl]
            rw [if_pos hx, Closes, hcl]
            refine ⟨fun body hbody => ?_, fun hnone => by cases hnone⟩
            cases hbody
            rw [Runes.afterLexeme, hx] at ha
            rw [hx]
            exact ⟨s, rfl, .inl ha⟩
          · -- a fragment inside the literal
            have hcloses := (ih _ hlt (.inl ha) rfl).append (closing_fragment hq hb hc rest)
            rw [happend] at hcloses
            rw [if_neg (mt (lexeme_eq_quote_iff hq first rest).mp hc)]
            exact hcloses

end FragmentReader

end SoliditySource
