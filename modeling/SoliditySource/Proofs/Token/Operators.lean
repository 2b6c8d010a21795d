import SoliditySource.Proofs.Fragment.Partition
import SoliditySource.Proofs.Token.Quoting

/-! # Operators

A fragment that starts like an operator is the longest fixed spelling in front of it, and a token
reader gives it the kind of this spelling, unless it comes to lie in a literal. To see this, the
tokens of a text are laid over its fragments: blanks, words and literals are whole fragments
(`Runes.Whole`).
-/

namespace SoliditySource

/-- A split symbol that operators and other marks are made of. -/
def Rune.isOperator (c : Char) : Bool := isSplit c && !isQuote c && c ≠ '\\'

/-- In front of `rest`, `text` is the longest fixed spelling, and it is the one of the kind. -/
structure TokenKind.LongestSpelling (kind : TokenKind) (text rest : List Char) : Prop where
  spelled : ∃ entry ∈ spellings, entry.1.toList = text ∧ entry.2 = kind
  longest : ∀ other ∈ spellings, other.1.toList <+: text ++ rest →
    other.1.toList.length ≤ text.length

namespace Runes

/-! ## The table -/

theorem isSplit_of_isOperator {c : Char} (h : Rune.isOperator c = true) :
    Rune.isSplit c = true := by
  rw [Rune.isOperator, Bool.and_eq_true, Bool.and_eq_true] at h
  exact h.1.1

theorem singleton_mem_operators {c : Char} (h : Rune.isOperator c = true) : [c] ∈ operators := by
  have hall : ∀ {l : List Char}, c ∈ l →
      (l.all fun d => !Rune.isOperator d || decide ([d] ∈ operators)) = true →
      [c] ∈ operators := by
    intro l hc hl
    have hd := List.all_eq_true.mp hl c hc
    simpa [h] using hd
  exact hall (of_decide_eq_true (isSplit_of_isOperator h)) (by decide +kernel)

/-- No spelling is empty. Those that start with a split symbol start like an operator, and they
are classified as the table says, never as numbers or identifiers. -/
theorem spellings_spec : ∀ entry ∈ TokenKind.spellings, entry.1.toList ≠ [] ∧
    (entry.1.toList.head?.any Rune.isSplit = true →
      entry.1.toList.head?.any Rune.isOperator = true ∧
        TokenKind.classify entry.1.toList = entry.2 ∧
        entry.2 ≠ .identifier ∧ entry.2 ≠ .number) := by
  have hentries : ∀ entry ∈ TokenKind.spellings, entry.1.toList ≠ [] ∧
      (entry.1.toList.head?.any Rune.isSplit = true →
        entry.1.toList.head?.any Rune.isOperator = true ∧
          entry.2 ≠ .identifier ∧ entry.2 ≠ .number) := by
    decide +kernel
  intro entry hentry
  obtain ⟨hne, hsplit⟩ := hentries entry hentry
  refine ⟨hne, fun hhead => ?_⟩
  obtain ⟨hoperator, hkind⟩ := hsplit hhead
  exact ⟨hoperator, TokenKind.classify_spelled entry hentry, hkind⟩

theorem mem_operators_iff {op : List Char} : op ∈ operators ↔
    (∃ entry ∈ TokenKind.spellings, entry.1.toList = op) ∧
      op.head?.any Rune.isSplit = true := by
  rw [operators, List.mem_filter, List.mem_map]

variable {first : Char}

theorem HasForm.isMark {form : Fragment.Form} {more rest : List Char}
    (h : HasForm form (first :: more) rest) (hsplit : Rune.isSplit first = true) :
    IsMark (first :: more) ∧ ∀ longer, IsMark longer → longer <+: (first :: more) ++ rest →
      longer.length ≤ (first :: more).length := by
  have hform : form = .mark := by rw [h.lexeme_eq.1, Fragment.Form.of, if_pos hsplit]
  subst hform
  cases h with
  | mark hmark hlongest => exact ⟨hmark, hlongest⟩

/-- A fragment of two or more split symbols is an operator. -/
theorem HasForm.mem_operators {form : Fragment.Form} {more rest : List Char}
    (h : HasForm form (first :: more) rest) (hsplit : Rune.isSplit first = true)
    (hmore : more ≠ []) : first :: more ∈ operators := by
  obtain hmem | ⟨c, -, hc⟩ := (h.isMark hsplit).1
  · exact hmem
  · exact absurd (List.cons.inj hc).2 hmore

/-- A fragment that starts like an operator is the longest spelling there, and classified by
it. -/
theorem exists_longestSpelling {form : Fragment.Form} {more rest : List Char}
    (hop : Rune.isOperator first = true) (h : HasForm form (first :: more) rest) :
    ∃ kind, kind.LongestSpelling (first :: more) rest ∧
      TokenKind.classify (first :: more) = kind ∧ kind ≠ .identifier ∧ kind ≠ .number := by
  have hsplit := isSplit_of_isOperator hop
  have hmem : first :: more ∈ operators := by
    cases more with
    | nil => exact singleton_mem_operators hop
    | cons c more => exact h.mem_operators hsplit (List.cons_ne_nil c more)
  obtain ⟨⟨entry, hentry, htext⟩, hhead⟩ := mem_operators_iff.mp hmem
  rw [← htext] at hhead
  obtain ⟨-, hclassify, hkind⟩ := (spellings_spec entry hentry).2 hhead
  refine ⟨entry.2, ⟨⟨entry, hentry, htext, rfl⟩, fun other hother hprefix => ?_⟩,
    htext ▸ hclassify, hkind⟩
  refine (h.isMark hsplit).2 _ (.inl (mem_operators_iff.mpr ⟨⟨other, hother, rfl⟩, ?_⟩)) hprefix
  obtain ⟨c, text, hc⟩ := List.exists_cons_of_ne_nil (spellings_spec other hother).1
  rw [hc] at hprefix ⊢
  rw [(List.cons_prefix_cons.mp hprefix).1]
  exact hsplit

/-! ## Tokens as whole fragments -/

/-- The text starts with whole fragments that make up `taken`. -/
inductive Whole : (cs taken : List Char) → Prop where
  | nil (cs : List Char) : Whole cs []
  | cons {cs more : List Char} (hne : cs ≠ []) (h : Whole (afterLexeme cs) more) :
      Whole cs (lexeme cs ++ more)

variable {cs taken : List Char}

theorem Whole.append {more : List Char} (h : Whole cs taken)
    (hmore : Whole (cs.drop taken.length) more) : Whole cs (taken ++ more) := by
  induction h with
  | nil cs => exact hmore
  | @cons cs text hne _ ih =>
      rw [List.append_assoc]
      refine .cons hne (ih ?_)
      rwa [List.length_append, ← List.drop_drop] at hmore

theorem Whole.lexeme (hne : cs ≠ []) : Whole cs (lexeme cs) := by
  have h := Whole.cons hne (.nil _)
  rwa [List.append_nil] at h

theorem whole_blanks (cs : List Char) : Whole cs (cs.takeWhile Rune.isBlank) := by
  induction hn : cs.length using Nat.strongRecOn generalizing cs with
  | _ n ih =>
      subst hn
      cases cs with
      | nil => exact .nil []
      | cons first rest =>
          by_cases hb : Rune.isBlank first = true
          · rw [(FragmentReader.dropWhile_afterLexeme rest hb).2]
            exact .cons (List.cons_ne_nil _ _)
              (ih _ (length_afterLexeme (List.cons_ne_nil _ _)) _ rfl)
          · rw [List.takeWhile_cons_of_neg hb]
            exact .nil _

/-- What closes a literal is made of whole fragments, since none hides a quote or a
backslash. -/
theorem whole_closing {quote : Char} {body : List Char} (hq : Rune.isQuote quote = true)
    (h : closing quote cs = some body) : Whole cs body := by
  induction hn : cs.length using Nat.strongRecOn generalizing cs body with
  | _ n ih =>
      subst hn
      cases cs with
      | nil => cases h
      | cons first rest =>
          have hlt := length_afterLexeme (List.cons_ne_nil first rest)
          by_cases hb : first = '\\'
          · subst hb
            have hx : Runes.lexeme ('\\' :: rest) = ['\\'] := lexeme_of_special (.inr rfl) rest
            have hafter : afterLexeme ('\\' :: rest) = rest := by rw [afterLexeme, hx]; rfl
            cases rest with
            | nil => cases h
            | cons d ds =>
                have hds := length_afterLexeme (List.cons_ne_nil d ds)
                have hescape := FragmentReader.closing_escape hq d ds
                rw [List.cons_append, lexeme_append_afterLexeme, h] at hescape
                obtain ⟨text, htext, rfl⟩ := Option.map_eq_some_iff.mp hescape.symm
                have htail := ih _ (Nat.lt_trans hds (by simp)) htext rfl
                have hwhole := Whole.cons (List.cons_ne_nil d ds) htail
                rw [← hafter] at hwhole
                have hfirst := Whole.cons (List.cons_ne_nil '\\' (d :: ds)) hwhole
                rwa [hx, ← List.append_assoc, hafter] at hfirst
          · by_cases hc : first = quote
            · subst hc
              have hx : Runes.lexeme (first :: rest) = [first] := lexeme_of_special (.inl hq) rest
              rw [closing.eq_def] at h
              dsimp only at h
              rw [if_neg hb, if_pos rfl] at h
              cases h
              rw [← hx]
              exact .lexeme (List.cons_ne_nil _ _)
            · have hfragment := FragmentReader.closing_fragment hq hb hc rest
              rw [lexeme_append_afterLexeme, h] at hfragment
              obtain ⟨text, htext, rfl⟩ := Option.map_eq_some_iff.mp hfragment.symm
              exact .cons (List.cons_ne_nil _ _) (ih _ hlt htext rfl)

/-- A quote and what closes the literal that it opens. -/
theorem whole_quoted {quote : Char} {rest body : List Char} (hq : Rune.isQuote quote = true)
    (h : closing quote rest = some body) : Whole (quote :: rest) (quote :: body) := by
  have hx : Runes.lexeme (quote :: rest) = [quote] := lexeme_of_special (.inl hq) rest
  have hafter : afterLexeme (quote :: rest) = rest := by rw [afterLexeme, hx]; rfl
  have hwhole := whole_closing hq h
  rw [← hafter] at hwhole
  have hcons := Whole.cons (List.cons_ne_nil quote rest) hwhole
  rwa [hx] at hcons

/-- A word stands by itself, or the literal that it leads goes on with whole fragments. -/
theorem whole_led {kind kind' : TokenKind} {word rest text : List Char}
    (hkind : kind.isStringLiteral = true) (h : led kind word rest = .ok (kind', text)) :
    text = word ∧ kind' = .classify word ∨
      kind'.isStringLiteral = true ∧ ∃ inner, text = word ++ inner ∧ Whole rest inner := by
  cases rest with
  | nil =>
      cases h
      exact .inl ⟨rfl, rfl⟩
  | cons c more =>
      rw [led] at h
      split at h
      · next hq =>
          rw [ledLiteral] at h
          split at h
          · next body hbody =>
              split at h
              · cases h
              · cases h
                exact .inr ⟨hkind, _, rfl, whole_quoted hq hbody⟩
          · cases h
      · split at h
        · cases h
        · cases h
          exact .inl ⟨rfl, rfl⟩

/-- A token is a fragment, or a literal, which is made of whole fragments. -/
theorem whole_token {rest text : List Char} {kind : TokenKind}
    (h : token (first :: rest) = .ok (kind, text)) :
    text = Runes.lexeme (first :: rest) ∧ kind = .classify text ∨
      kind.isStringLiteral = true ∧ Whole (first :: rest) text := by
  by_cases hq : Rune.isQuote first = true
  · rw [token, if_pos hq, plainLiteral] at h
    split at h
    · next body hb =>
        cases h
        refine .inr ⟨?_, whole_quoted hq hb⟩
        split <;> rfl
    · cases h
  by_cases hb : first = '\\'
  · rw [token, if_neg hq, if_pos hb] at h
    cases h
  rw [token_of_word hq hb, ofWord] at h
  have hled : ∀ {kind' : TokenKind}, kind'.isStringLiteral = true →
      led kind' (Runes.lexeme (first :: rest)) (afterLexeme (first :: rest)) = .ok (kind, text) →
      text = Runes.lexeme (first :: rest) ∧ kind = .classify text ∨
        kind.isStringLiteral = true ∧ Whole (first :: rest) text := by
    intro kind' hkind hl
    obtain ⟨rfl, hclassify⟩ | ⟨hliteral, inner, rfl, hinner⟩ := whole_led hkind hl
    · exact .inl ⟨rfl, hclassify⟩
    · exact .inr ⟨hliteral, .cons (List.cons_ne_nil _ _) hinner⟩
  split at h
  · exact hled rfl h
  · split at h
    · exact hled rfl h
    · cases h
      exact .inl ⟨rfl, rfl⟩

theorem Divides.exists_cons {p : Position} {fs : List Fragment} (h : Divides p cs fs)
    (hne : cs ≠ []) : ∃ back, fs = ⟨p, Runes.lexeme cs⟩ :: back ∧
      Divides (p.advance (Runes.lexeme cs)) (afterLexeme cs) back := by
  cases h with
  | nil => exact absurd rfl hne
  | cons _ h => exact ⟨_, rfl, h⟩

/-- Fragments that divide a text divide what comes behind some of them. -/
theorem Divides.split {p : Position} {fs : List Fragment} (h : Divides p cs fs)
    (hwhole : Whole cs taken) :
    ∃ front back, fs = front ++ back ∧ front.flatMap Fragment.text = taken ∧
      Divides (p.advance taken) (cs.drop taken.length) back := by
  induction hwhole generalizing p fs with
  | nil cs => exact ⟨[], fs, rfl, rfl, h⟩
  | @cons cs more hne _ ih =>
      obtain ⟨fs, rfl, htail⟩ := h.exists_cons hne
      obtain ⟨front, back, rfl, hfront, hback⟩ := ih htail
      refine ⟨_ :: front, back, rfl, by rw [List.flatMap_cons, hfront], ?_⟩
      rwa [Position.advance_append, List.length_append, ← List.drop_drop]

/-- Where an operator stands in the text, a fragment starts with it, or another operator that
starts in front of it takes its first runes. -/
theorem Divides.exists_operator {p : Position} {fs : List Fragment} (h : Divides p cs fs)
    {before op after : List Char} (hcs : cs = before ++ (op ++ after)) (hop : op ∈ operators) :
    ∃ front f back, fs = front ++ f :: back ∧
      (before = front.flatMap Fragment.text ∧ op <+: f.text ∨
        ∃ earlier later, earlier ≠ [] ∧ later ≠ [] ∧ f.text = earlier ++ later ∧
          before = front.flatMap Fragment.text ++ earlier ∧ f.text ∈ operators) := by
  obtain ⟨⟨entry, hentry, htext⟩, hhead⟩ := mem_operators_iff.mp hop
  obtain ⟨hne, hspelled⟩ := spellings_spec entry hentry
  rw [htext] at hne hspelled
  obtain ⟨c, more, rfl⟩ := List.exists_cons_of_ne_nil hne
  have hc : Rune.isOperator c = true := by simpa using (hspelled hhead).1
  have hall : fs.flatMap Fragment.text = before ++ c :: (more ++ after) := h.flatMap_eq.trans hcs
  obtain ⟨front, f, back, earlier, later, hfs, hf, hbefore, hafter⟩ := exists_around hall
  obtain ⟨-, form, hform⟩ := h.spec hfs
  refine ⟨front, f, back, hfs, ?_⟩
  rw [hf] at hform ⊢
  cases earlier with
  | nil =>
      rw [List.append_nil] at hbefore
      obtain ⟨kind, hlongest, -⟩ := exists_longestSpelling hc hform
      have hprefix : c :: more <+: (c :: later) ++ back.flatMap Fragment.text :=
        ⟨after, by rw [List.cons_append, List.cons_append, hafter]⟩
      have hle := hlongest.longest entry hentry (htext ▸ hprefix)
      rw [htext] at hle
      exact .inl ⟨hbefore, List.prefix_of_prefix_length_le hprefix (List.prefix_append _ _) hle⟩
  | cons d earlier =>
      refine .inr ⟨d :: earlier, c :: later, by simp, by simp, rfl, hbefore, ?_⟩
      have hmem : c ∈ d :: (earlier ++ c :: later) := by simp
      have hsplit : Rune.isSplit d = true :=
        (hform.isSplit_eq hmem).symm.trans (isSplit_of_isOperator hc)
      exact hform.mem_operators hsplit (by simp)

theorem Divides.le_position {p : Position} {fs : List Fragment} (h : Divides p cs fs)
    {f : Fragment} (hf : f ∈ fs) : p ≤ f.position := by
  obtain ⟨front, back, rfl⟩ := List.append_of_mem hf
  rw [(h.spec rfl).1]
  exact Position.le_advance p _

theorem not_isOperator_of_isBlank {c : Char} (h : Rune.isBlank c = true) :
    Rune.isOperator c = false := by
  rw [Rune.isOperator, isSplit_of_isBlank h]
  rfl

/-- Fragments that make up blanks are none that start like an operator. -/
theorem not_isOperator_of_blanks {fs : List Fragment} {f : Fragment} (hf : f ∈ fs)
    (hblanks : ∀ c ∈ fs.flatMap Fragment.text, Rune.isBlank c = true) :
    ¬ f.text.head?.any Rune.isOperator = true := by
  intro hop
  cases htext : f.text with
  | nil => rw [htext] at hop; cases hop
  | cons c text =>
      have hmem : c ∈ fs.flatMap Fragment.text :=
        List.mem_flatMap.mpr ⟨f, hf, by rw [htext]; exact List.mem_cons_self⟩
      have hop : Rune.isOperator c = true := by simpa [htext] using hop
      rw [not_isOperator_of_isBlank (hblanks c hmem)] at hop
      cases hop

/-- A fragment that starts like an operator is the token there. -/
theorem token_operator {form : Fragment.Form} {more rest : List Char}
    (hop : Rune.isOperator first = true) (h : HasForm form (first :: more) rest) :
    token ((first :: more) ++ rest) = .ok (.classify (first :: more), first :: more) := by
  have hlexeme : Runes.lexeme (first :: (more ++ rest)) = first :: more := h.lexeme_eq.2
  have hop' := hop
  simp only [Rune.isOperator, Bool.and_eq_true, Bool.not_eq_true', decide_eq_true_eq] at hop'
  have hq : ¬ Rune.isQuote first = true := by simp [hop'.1.2]
  have hlead : ∀ c word, Rune.isOperator c = false → first :: more ≠ c :: word := by
    rintro c word hc heq
    rw [(List.cons.inj heq).1, hc] at hop
    cases hop
  rw [List.cons_append, token_of_word hq hop'.2, hlexeme, ofWord, if_neg, if_neg]
  · exact hlead 'h' _ (by decide)
  · exact hlead 'u' _ (by decide)

end Runes

/-! ## Readers -/

namespace FragmentReader

/-- A reader stands in the text, behind whole fragments. -/
def Between (text : List Char) (r : FragmentReader) : Prop :=
  ∃ before ahead, (text = before ++ ahead ∧ Runes.Whole text before) ∧
    r.Stands ahead (Position.start.advance before)

theorem between_ofFeed (text : List Char) : (ofFeed (.ofText text)).Between text := by
  refine ⟨[], text, ⟨rfl, .nil text⟩, .inl ?_⟩
  rw [Feed.ofText_eq_runes]
  exact ahead_ofFeed text

theorem keeps_between (text : List Char) : Keeps (Between text) fun _ => False := by
  refine keeps_places fun before ahead hplace hne => ?_
  obtain ⟨rfl, hwhole⟩ := hplace
  refine ⟨by rw [List.append_assoc, Runes.lexeme_append_afterLexeme], hwhole.append ?_⟩
  rw [List.drop_left]
  exact .lexeme hne

theorem Between.step {text : List Char} {r : FragmentReader} (s : FragmentStep)
    (h : r.Between text) : (left (step s r)).Between text := by
  cases s with
  | next => exact ((keeps_between text).next h).left
  | peek => exact ((keeps_between text).peek h).left

/-- What is handed out or looked at in a text is one of its fragments. -/
theorem Between.mem {text : List Char} {r s : FragmentReader} {step : FragmentStep} {f : Fragment}
    (h : r.Between text) (hf : FragmentReader.step step r = .ok (some f) s) {fs : List Fragment}
    (hdivides : Runes.Divides .start text fs) : f ∈ fs := by
  obtain ⟨before, ahead, ⟨rfl, hwhole⟩, hr⟩ := h
  have hf : ahead ≠ [] ∧ f = ⟨Position.start.advance before, Runes.lexeme ahead⟩ := by
    by_cases hne : ahead = []
    · subst hne
      obtain ⟨t, ht, -⟩ := next_nil hr
      obtain ⟨u, hu, -⟩ := peek_nil hr
      cases step with
      | next => cases hf.symm.trans ht
      | peek => cases hf.symm.trans hu
    · obtain ⟨t, ht, -⟩ := next_cons hr hne
      obtain ⟨u, hu, -⟩ := peek_cons hr hne
      cases step with
      | next => cases hf.symm.trans ht; exact ⟨hne, rfl⟩
      | peek => cases hf.symm.trans hu; exact ⟨hne, rfl⟩
  obtain ⟨hne, rfl⟩ := hf
  obtain ⟨front, back, rfl, -, hback⟩ := hdivides.split hwhole
  rw [List.drop_left] at hback
  obtain ⟨back, rfl, -⟩ := hback.exists_cons hne
  exact List.mem_append_right _ List.mem_cons_self

end FragmentReader

namespace TokenReader

variable {text : List Char} {r s : TokenReader} {place : Place} {fs : List Fragment} {f : Fragment}

/-- Where a fragment that starts like an operator comes next, perhaps behind blanks, it is the
next token. -/
theorem Within.next_operator {front blanks more rest : List Char} {first : Char}
    {form : Fragment.Form} (h : r.Within text)
    (htext : text = front ++ (blanks ++ ((first :: more) ++ rest)))
    (hblanks : ∀ c ∈ blanks, Rune.isBlank c = true) (hop : Rune.isOperator first = true)
    (hform : Runes.HasForm form (first :: more) rest)
    (hp : r.position = Position.start.advance front) :
    ∃ s, r.next = .ok ⟨.classify (first :: more), first :: more,
      Position.start.advance (front ++ blanks)⟩ s := by
  obtain ⟨s, base, skipped, hnone, hnext, rfl, hskipped, hs⟩ := h.exists_stands htext hp
  have hall : ∀ c ∈ skipped ++ blanks, Rune.isBlank c = true := by
    simpa [or_imp, forall_and] using ⟨hskipped, hblanks⟩
  have hsolid : (first :: more).head?.any Rune.isBlank = false := by
    by_contra hb
    have hb : Rune.isBlank first = true := by simpa using hb
    rw [Runes.not_isOperator_of_isBlank hb] at hop
    cases hop
  rw [← List.append_assoc] at hs
  have hreads := Token.read_reads hs.near
  rw [Place.read_text hall (List.cons_ne_nil _ _) hsolid (Runes.token_operator hop hform),
    ← Position.advance_append, ← List.append_assoc] at hreads
  obtain ⟨u, hu, -⟩ := hreads
  refine ⟨⟨u, none⟩, ?_⟩
  rw [hnext]
  simp only [TokenReader.next, hnone, hu]

/-- What becomes of a fragment that starts like an operator, once tokens are handed out up to
behind it: it is one of them, or lies in a literal. -/
def Finds (ts : List Token) (f : Fragment) : Prop :=
  ⟨.classify f.text, f.text, f.position⟩ ∈ ts ∨
    ∃ t ∈ ts, t.kind.isStringLiteral = true ∧
      ∃ earlier later, t.text = earlier ++ (f.text ++ later) ∧
        f.position = t.position.advance earlier

theorem Finds.append {ts : List Token} (h : Finds ts f) (us : List Token) : Finds (ts ++ us) f := by
  obtain h | ⟨t, ht, h⟩ := h
  · exact .inl (List.mem_append_left us h)
  · exact .inr ⟨t, List.mem_append_left us ht, h⟩

theorem Finds.cons {ts : List Token} (h : Finds ts f) (t : Token) : Finds (t :: ts) f := by
  obtain h | ⟨u, hu, h⟩ := h
  · exact .inl (List.mem_cons_of_mem t h)
  · exact .inr ⟨u, List.mem_cons_of_mem t hu, h⟩

/-- A token takes blanks and then whole fragments away, one or, for a literal, more. -/
theorem finds_of_takes {next : Place} {t : Token} {blanks : List Char}
    (htakes : place.Takes next t blanks) (hwhole : Runes.Whole place.runes blanks)
    (hdivides : Runes.Divides place.position place.runes fs) (hf : f ∈ fs)
    (hop : f.text.head?.any Rune.isOperator = true) :
    Finds [t] f ∨ ∃ back, Runes.Divides next.position next.runes back ∧ f ∈ back := by
  obtain ⟨front, back, rfl, hfront, hback⟩ := hdivides.split hwhole
  have hdrop : place.runes.drop blanks.length = t.text ++ next.runes := by
    rw [htakes.runes, List.drop_left]
  rw [hdrop, ← htakes.position] at hback
  obtain hf | hf := List.mem_append.mp hf
  · exact absurd hop (Runes.not_isOperator_of_blanks hf (hfront ▸ htakes.blank))
  obtain ⟨first, more, hcons⟩ := List.exists_cons_of_ne_nil htakes.ne_nil
  have htoken := htakes.token
  rw [hcons, List.cons_append] at htoken
  have hafter : (t.text ++ next.runes).drop t.text.length = next.runes := List.drop_left
  obtain ⟨hword, hkind⟩ | ⟨hliteral, hinside⟩ := Runes.whole_token htoken
  · rw [← List.cons_append, ← hcons] at hword
    have hne : t.text ++ next.runes ≠ [] := List.append_ne_nil_of_left_ne_nil htakes.ne_nil _
    obtain ⟨back, rfl, hbehind⟩ := hback.exists_cons hne
    rw [Runes.afterLexeme, ← hword, hafter, ← htakes.next_position] at hbehind
    obtain rfl | hf := List.mem_cons.mp hf
    · refine .inl (.inl (List.mem_singleton.mpr ?_))
      rw [← hword, hcons, ← hkind, ← hcons]
    · exact .inr ⟨back, hbehind, hf⟩
  · rw [← List.cons_append, ← hcons] at hinside
    obtain ⟨inner, back, rfl, hinner, hbehind⟩ := hback.split hinside
    rw [hafter, ← htakes.next_position] at hbehind
    obtain hf | hf := List.mem_append.mp hf
    · obtain ⟨earlier, later, rfl⟩ := List.append_of_mem hf
      have hspec := hback.spec (show _ = earlier ++ f :: (later ++ back) by simp)
      refine .inl (.inr ⟨t, List.mem_singleton_self t, hliteral, _,
        later.flatMap Fragment.text, ?_, hspec.1⟩)
      rw [← hinner, List.flatMap_append, List.flatMap_cons]
    · exact .inr ⟨back, hbehind, hf⟩

theorem Hands.finds {ts : List Token} (h : r.Hands ts s) (hr : r.At place)
    (hdivides : Runes.Divides place.position place.runes fs) (hf : f ∈ fs)
    (hop : f.text.head?.any Rune.isOperator = true) (hlt : f.position < s.position) :
    Finds ts f := by
  induction h generalizing place fs with
  | nil r =>
      obtain ⟨front, back, rfl, hfront, hback⟩ := hdivides.split (Runes.whole_blanks _)
      have hblank : ∀ c ∈ front.flatMap Fragment.text, Rune.isBlank c = true := by
        rw [hfront]
        exact fun c hc => Runes.mem_takeWhile_imp hc
      obtain hf | hf := List.mem_append.mp hf
      · exact absurd hop (Runes.not_isOperator_of_blanks hf hblank)
      · have hle := Position.le_trans hr.position_between.2 (hback.le_position hf)
        exact absurd hle (Position.not_le_of_lt hlt)
  | @cons r t u tok ts hnext hs ih =>
      cases hread : place.read with
      | error fault =>
          obtain ⟨v, hv⟩ := next_error hr hread
          cases hnext.symm.trans hv
      | ok found =>
          obtain ⟨t', next⟩ := found
          obtain ⟨v, hv, ha⟩ := next_ok hr hread
          cases hnext.symm.trans hv
          by_cases ht : tok.isEos = true
          · have hall := (Place.eq_eos_of_read hread ht).1
            rw [← hdivides.flatMap_eq] at hall
            exact absurd hop (Runes.not_isOperator_of_blanks hf hall)
          · have htakes := Place.takes_of_read hread (by simpa using ht)
            obtain hfinds | ⟨back, hback, hf⟩ :=
              finds_of_takes htakes (Runes.whole_blanks _) hdivides hf hop
            · exact hfinds.append ts
            · exact (ih ha hback hf hlt).cons tok

/-- The fragments of a text are what is handed out and looked at. One that starts like an operator
is the longest fixed spelling there, which is never that of an identifier or a number. Its kind is
the one that a token reader gives it: after any steps, some of which may have failed, if it comes
next, and whenever the reader has come past it, unless it lies in a literal. No operator that
stands in the text is cut off, but another one that starts in front of it may take its first
runes. -/
theorem operators_spelled (text : List Char) :
    let start := ofFeed (.ofText text)
    let fragments := start.fragments.drain.fragments
    (∀ steps s f r, FragmentReader.step s (leftBy FragmentReader.step steps start.fragments) =
      .ok (some f) r → f ∈ fragments) ∧
    (∀ front f back, fragments = front ++ f :: back → f.text.head?.any Rune.isOperator = true →
      ∃ kind : TokenKind, kind.LongestSpelling f.text (back.flatMap Fragment.text) ∧
        kind ≠ .identifier ∧ kind ≠ .number ∧
        (∀ before blanks steps, front.flatMap Fragment.text = before ++ blanks →
          (∀ c ∈ blanks, Rune.isBlank c = true) →
          (leftBy step steps start).position = Position.start.advance before →
          ∃ s, (leftBy step steps start).next = .ok ⟨kind, f.text, f.position⟩ s) ∧
        ∀ ts s, start.Hands ts s → f.position < s.position →
          ⟨kind, f.text, f.position⟩ ∈ ts ∨
            ∃ t ∈ ts, t.kind.isStringLiteral = true ∧
              ∃ earlier later, t.text = earlier ++ (f.text ++ later) ∧
                f.position = t.position.advance earlier) ∧
    ∀ before op after, text = before ++ (op ++ after) → op ∈ Runes.operators →
      ∃ front f back, fragments = front ++ f :: back ∧
        (before = front.flatMap Fragment.text ∧ op <+: f.text ∨
          ∃ earlier later, earlier ≠ [] ∧ later ≠ [] ∧ f.text = earlier ++ later ∧
            before = front.flatMap Fragment.text ++ earlier ∧ f.text ∈ Runes.operators) := by
  intro start fragments
  have hstands : start.fragments.Stands text .start := by
    show (FragmentReader.ofFeed (.ofText text)).Stands text .start
    rw [Feed.ofText_eq_runes]
    exact .inl (FragmentReader.ahead_ofFeed text)
  obtain ⟨fs, u, hrun, hdivides, -⟩ := FragmentReader.drain_stands hstands
  have hfs : fragments = fs := congrArg FragmentReader.Run.fragments hrun
  rw [hfs]
  refine ⟨fun steps s f r hf => ?_, fun front f back hsplit hhead => ?_, ?_⟩
  · have hbetween : (leftBy FragmentReader.step steps start.fragments).Between text :=
      leftBy_induction (fun s _ => FragmentReader.Between.step s)
        (FragmentReader.between_ofFeed text) steps
    exact hbetween.mem hf hdivides
  · obtain ⟨hposition, form, hform⟩ := hdivides.spec hsplit
    obtain ⟨first, more, hcons⟩ := hform.exists_cons
    have hop : Rune.isOperator first = true := by simpa [hcons] using hhead
    rw [hcons] at hform
    obtain ⟨kind, hlongest, hclassify, hidentifier, hnumber⟩ :=
      Runes.exists_longestSpelling hop hform
    rw [hcons]
    refine ⟨kind, hlongest, hidentifier, hnumber, fun before blanks steps hbefore hblanks hp => ?_,
      fun ts s hhands hlt => ?_⟩
    · have hr : (leftBy step steps start).Within text :=
        leftBy_induction (fun s _ => Within.step s) (within_ofFeed text) steps
      have htext : text =
          before ++ (blanks ++ ((first :: more) ++ back.flatMap Fragment.text)) := by
        rw [← hdivides.flatMap_eq, hsplit, List.flatMap_append, hbefore, List.flatMap_cons, hcons,
          List.append_assoc]
      have hnext := hr.next_operator htext hblanks hop hform hp
      rwa [hclassify, ← hbefore, ← hposition] at hnext
    · have hmem : f ∈ fs := by
        rw [hsplit]
        exact List.mem_append_right _ List.mem_cons_self
      have hfinds := hhands.finds (at_ofFeed text) hdivides hmem hhead hlt
      rwa [Finds, hcons, hclassify] at hfinds
  · exact fun before op after htext hop => hdivides.exists_operator htext hop

end TokenReader

end SoliditySource
