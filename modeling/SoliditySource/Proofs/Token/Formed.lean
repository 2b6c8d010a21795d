import SoliditySource.Proofs.Fragment.Forms
import SoliditySource.Proofs.Session.Account
import SoliditySource.Proofs.Session.Tokens
import SoliditySource.Proofs.Token.Quoting

/-! # What tokens are made of

A source may pause and fail anywhere, and steps go on after failures. The fragments that are cut
off it still have the forms of fragments, though they may be shorter than those of a text. So
every token is an end token, a classified fragment that is not blank, or a literal from its
leading word to the quote that closes it (`Token.Formed`).
-/

namespace SoliditySource

namespace Runes

/-- A text that is a fragment if nothing comes behind it. -/
def IsPiece (text : List Char) : Prop := ∃ form, HasForm form text []

theorem isPiece_of_isMark {text : List Char} (h : IsMark text) : IsPiece text := by
  refine ⟨.mark, .mark h fun longer _ hprefix => ?_⟩
  rw [List.append_nil] at hprefix
  exact hprefix.length_le

theorem isPiece_of_continues {first : Char} {more : List Char}
    (h : ∀ c ∈ first :: more, Rune.continues first c = true) : IsPiece (first :: more) :=
  ⟨.word, .word h (by simp)⟩

theorem isPiece_of_isSpace {first : Char} {more : List Char}
    (h : ∀ c ∈ first :: more, Rune.isSpace c = true) : IsPiece (first :: more) :=
  ⟨.space, .space (List.cons_ne_nil _ _) h (by simp)⟩

theorem isBlank_of_isSplit {c : Char} (h : Rune.isSplit c = true) : Rune.isBlank c = false := by
  rw [← Bool.not_eq_true]
  intro hblank
  rw [isSplit_of_isBlank hblank] at h
  cases h

theorem isBlank_of_isWord {c : Char} (h : Rune.isWord c = true) : Rune.isBlank c = false := by
  rw [← Bool.not_eq_true]
  intro hblank
  rw [isWord_of_isBlank hblank] at h
  cases h

/-- A fragment is blank all over, or not at all. -/
theorem HasForm.isBlank_eq {form : Fragment.Form} {first : Char} {more rest : List Char}
    (h : HasForm form (first :: more) rest) {c : Char} (hc : c ∈ first :: more) :
    Rune.isBlank c = Rune.isBlank first := by
  cases h with
  | mark hmark =>
      rw [isBlank_of_isSplit (hmark.isSplit c hc),
        isBlank_of_isSplit (hmark.isSplit first List.mem_cons_self)]
  | newline => rw [List.mem_singleton.mp hc]
  | period => rw [List.mem_singleton.mp hc]
  | space _ hall => simp [Rune.isBlank, hall c hc, hall first List.mem_cons_self]
  | word hall =>
      have hword : ∀ d ∈ first :: more, Rune.isBlank d = false := by
        intro d hd
        have hcontinues := hall d hd
        rw [Rune.continues, Bool.and_eq_true] at hcontinues
        exact isBlank_of_isWord hcontinues.1
      rw [hword c hc, hword first List.mem_cons_self]

theorem IsPiece.isBlank_eq {f : Fragment} (h : IsPiece f.text) {c : Char} (hc : c ∈ f.text) :
    Rune.isBlank c = f.isBlank := by
  obtain ⟨p, text⟩ := f
  obtain ⟨form, hform⟩ := h
  obtain ⟨first, more, rfl⟩ := hform.exists_cons
  have hlexeme := hform.lexeme_eq.2
  rw [List.append_nil] at hlexeme
  have hblank := FragmentReader.isBlank_lexeme p first more
  rw [hlexeme] at hblank
  rw [hblank]
  exact hform.isBlank_eq hc

end Runes

/-! ## Fragments -/

namespace FragmentReader

open Runes

variable {r s : FragmentReader}

theorem isMark_longestOperator {n : Nat} {op longer : List Char} (hop : IsMark op)
    (h : longestOperator n op r = .ok longer s) : IsMark longer := by
  induction n generalizing op r with
  | zero => cases h; exact hop
  | succ n ih =>
      unfold longestOperator at h
      split at h
      · cases h; exact hop
      · simp only [bind, EStateM.bind] at h
        cases hl : lookAhead op.length r with
        | error e t => simp [hl] at h
        | ok a t =>
            simp only [hl] at h
            cases a with
            | none => cases h; exact hop
            | some c =>
                dsimp only at h
                split at h
                · next hc => exact ih (.inl (mem_operators_of_extension hc)) h
                · cases h; exact hop

/-- The operator that is found is pending, whatever was pending behind its first rune. -/
theorem isPrefix_longestOperator {n : Nat} {op longer : List Char} (hop : op <+: r.pending)
    (h : longestOperator n op r = .ok longer s) : longer <+: s.pending := by
  induction n generalizing op r with
  | zero => cases h; exact hop
  | succ n ih =>
      unfold longestOperator at h
      split at h
      · cases h; exact hop
      · obtain ⟨rest, hrest⟩ := hop
        simp only [bind, EStateM.bind] at h
        cases hl : lookAhead op.length r with
        | error e t => simp [hl] at h
        | ok a t =>
            simp only [hl] at h
            cases a with
            | none =>
                cases h
                rw [pending_lookAhead_none hrest.symm hl]
            | some c =>
                obtain ⟨rest', ht, -⟩ := pending_lookAhead_some hrest.symm hl
                dsimp only at h
                split at h
                · exact ih ⟨rest', by rw [ht, List.append_assoc, List.singleton_append]⟩ h
                · cases h
                  exact ⟨_, ht.symm⟩

theorem of_mem_takeWhile {p : Char → Bool} {text : List Char} (h : takeWhile p r = .ok text s) :
    ∀ c ∈ text, p c = true := by
  fun_induction takeWhile p r generalizing text s with
  | case1 r cause t hl => cases h
  | case2 r t hl => cases h; simp
  | case3 r c t hl hp text' u hu ih => cases h; simpa [hp] using ih hu
  | case4 r c t hl hp cause u hu ih => cases h
  | case5 r c t hl hp => cases h; simp

/-- A run starts with the rune that comes next. -/
theorem head_takeWhile {p : Char → Bool} {first : Char} {more text : List Char}
    (hr : r.pending = first :: more) (hp : p first = true) (h : takeWhile p r = .ok text s) :
    ∃ rest, text = first :: rest := by
  have hl : lookAhead 0 r = .ok (some first) r := by simp [lookAhead, hr]
  unfold takeWhile at h
  split at h
  · next hl' => rw [hl] at hl'; cases hl'
  · next hl' => rw [hl] at hl'; cases hl'
  · next d t hl' =>
      rw [hl] at hl'
      cases hl'
      rw [if_pos hp] at h
      split at h
      · cases h; exact ⟨_, rfl⟩
      · cases h

theorem isPiece_lexeme {first : Char} {more text : List Char} (hr : r.pending = first :: more)
    (h : lexeme first r = .ok text s) : IsPiece text := by
  unfold lexeme at h
  split at h
  · next hsplit =>
      split at h
      · next op t hl =>
          have hmark : IsMark op := isMark_longestOperator (.inr ⟨first, hsplit, rfl⟩) hl
          obtain ⟨rest, hrest⟩ := isPrefix_longestOperator ⟨more, hr.symm⟩ hl
          simp only [takeRunes, ← hrest, List.take_left] at h
          cases h
          exact isPiece_of_isMark hmark
      · cases h
  · next hsplit =>
      split at h
      · next hone =>
          have htext : text = [first] := by
            simp only [takeRunes, hr] at h
            cases h
            rfl
          subst htext
          cases hone with
          | inl hline => exact ⟨.newline, hline ▸ .newline []⟩
          | inr hperiod => exact ⟨.period, hperiod ▸ .period []⟩
      · next hone =>
          split at h
          · next hspace =>
              obtain ⟨rest, rfl⟩ := head_takeWhile hr hspace h
              exact isPiece_of_isSpace (of_mem_takeWhile h)
          · next hspace =>
              obtain ⟨hline, hperiod⟩ := not_or.mp hone
              have hfirst : Rune.continues first first = true :=
                continues_self (by simpa using hsplit) hline hperiod (by simpa using hspace)
              obtain ⟨rest, rfl⟩ := head_takeWhile hr hfirst h
              exact isPiece_of_continues (of_mem_takeWhile h)

theorem isPiece_cut {f : Fragment} (h : cut r = .ok (some f) s) : IsPiece f.text := by
  unfold cut at h
  split at h
  · cases h
  · cases h
  · next first t hl =>
      obtain ⟨more, hmore, -⟩ := lookAhead_zero_some hl
      split at h
      · next hx => cases h; exact isPiece_lexeme hmore hx
      · cases h

/-- Cutting off a fragment does not touch the one that is held, even if it fails. -/
theorem held_left_cut (r : FragmentReader) : (left (cut r)).held = r.held := by
  cases hc : cut r with
  | ok f s => exact held_cut hc
  | error cause s =>
      obtain ⟨lost, hs, -⟩ := spends_cut_error hc
      exact hs.held_eq

/-- A fragment that is held has a form. -/
def HoldsPiece (r : FragmentReader) : Prop := ∀ f ∈ r.held, IsPiece f.text

theorem keeps_holdsPiece : Keeps HoldsPiece fun _ => True where
  next := by
    intro r h
    apply Ends.of_left
    unfold next
    split
    · simp [left, HoldsPiece]
    · next hnone =>
        intro f hf
        rw [held_left_cut, hnone] at hf
        cases hf
  peek := by
    intro r h
    apply Ends.of_left
    unfold peek
    split
    · exact h
    · next hnone =>
        split
        · next f s hc =>
            intro g hg
            cases hg
            exact isPiece_cut hc
        · next cause s hc =>
            have hheld := held_left_cut r
            rw [hc] at hheld
            intro f hf
            rw [left, show s.held = none from hheld.trans hnone] at hf
            cases hf
  release := by
    intro r h f hf
    cases hf

theorem HoldsPiece.next {f : Fragment} (h : r.HoldsPiece) (hn : r.next = .ok (some f) s) :
    IsPiece f.text := by
  unfold FragmentReader.next at hn
  split at hn
  · next hf => cases hn; exact h f hf
  · exact isPiece_cut hn

theorem HoldsPiece.nextSolid {f : Fragment} (h : r.HoldsPiece)
    (hn : r.nextSolid = .ok (some f) s) : IsPiece f.text ∧ f.isBlank = false := by
  fun_induction FragmentReader.nextSolid r with
  | case1 r cause t hn' => cases hn
  | case2 r t hn' => cases hn
  | case3 r g t hn' hb ih => exact ih ((keeps_holdsPiece.next h).ok hn') hn
  | case4 r g t hn' hb => cases hn; exact ⟨h.next hn', by simpa using hb⟩

/-- What comes behind an opening quote ends with the quote that closes the literal. -/
theorem closeQuote_eq_append {quote text : List Char} (h : closeQuote quote r = .ok text s) :
    ∃ body, text = body ++ quote := by
  fun_induction closeQuote quote r generalizing text s with
  | case1 r e t hn => cases h
  | case2 r f t hn hb e u hn' => cases h
  | case3 r f t hn hb g u hn' text' v hc ih =>
      cases h
      obtain ⟨body, rfl⟩ := ih hc
      exact ⟨f.text ++ g.text ++ body, by simp⟩
  | case4 r f t hn hb g u hn' e v hc ih => cases h
  | case5 r f t hn hb hq => cases h; exact ⟨[], by simpa using hq⟩
  | case6 r f t hn hb hq text' u hc ih =>
      cases h
      obtain ⟨body, rfl⟩ := ih hc
      exact ⟨f.text ++ body, by simp⟩
  | case7 r f t hn hb hq e u hc ih => cases h

theorem quoted_eq_append {opening : Fragment} {text : List Char}
    (h : quoted opening r = .ok text s) :
    ∃ quote body, Rune.isQuote quote = true ∧ opening.text = [quote] ∧
      text = quote :: (body ++ [quote]) := by
  unfold quoted at h
  split at h
  · next hquote =>
      obtain ⟨p, opened⟩ := opening
      unfold Fragment.isQuote at hquote
      split at hquote
      · next quote htext =>
          dsimp only at htext
          subst htext
          split at h
          · next body t hc =>
              cases h
              obtain ⟨body, rfl⟩ := closeQuote_eq_append hc
              exact ⟨quote, body, hquote, rfl, rfl⟩
          · cases h
      · cases hquote
  · cases h

end FragmentReader

/-! ## Tokens -/

namespace Token

open FragmentReader Runes

/-- How a token is made up: its kind is told by its text, or by the word that leads it. -/
inductive Formed : Token → Prop where
  | eos (p : Position) : Formed (.eos p)
  | classified {text : List Char} (p : Position) (hpiece : IsPiece text)
      (hsolid : ∀ c ∈ text, Rune.isBlank c = false) : Formed (.classified text p)
  | literal {lead : List Char} {kind : TokenKind} {quote : Char} {body : List Char}
      (p : Position) (hlead : (lead, kind) ∈ literalLeads) (hquote : Rune.isQuote quote = true)
      (hhex : kind = .hexString → HexBody.isValid body = true) :
      Formed ⟨if kind = .nonEmptyString ∧ body = [] then .emptyString else kind,
        lead ++ quote :: (body ++ [quote]), p⟩

variable {r s : FragmentReader} {t : Token}

theorem formed_plainLiteral {opening : Fragment} (h : plainLiteral opening r = .ok t s) :
    t.Formed := by
  unfold plainLiteral at h
  split at h
  · next text u hq =>
      cases h
      obtain ⟨quote, body, hquote, -, rfl⟩ := quoted_eq_append hq
      have hkind : (if (quote :: (body ++ [quote])).length = 2 then TokenKind.emptyString
          else .nonEmptyString) = if TokenKind.nonEmptyString = .nonEmptyString ∧ body = [] then
            .emptyString else .nonEmptyString := by
        cases body <;> simp
      have hlead : ([], TokenKind.nonEmptyString) ∈ literalLeads := .head _
      rw [hkind]
      exact .literal opening.position hlead hquote (by simp)
  · cases h

theorem formed_ledLiteral {lead : Fragment} {kind : TokenKind}
    (hlead : (lead.text, kind) ∈ literalLeads) (hk : kind ≠ .nonEmptyString)
    (h : ledLiteral lead kind r = .ok t s) : t.Formed := by
  unfold ledLiteral at h
  split at h
  · cases h
  · split at h
    · cases h
    · next text u hq =>
        obtain ⟨quote, body, hquote, -, rfl⟩ := quoted_eq_append hq
        split at h
        · cases h
        · next hhex =>
            cases h
            have hformed : Formed ⟨if kind = .nonEmptyString ∧ body = [] then .emptyString
                else kind, lead.text ++ quote :: (body ++ [quote]), lead.position⟩ :=
              .literal lead.position hlead hquote (by simpa using hhex)
            rwa [if_neg (fun hkind => hk hkind.1)] at hformed

theorem formed_led {lead : Fragment} {kind : TokenKind} (hpiece : IsPiece lead.text)
    (hsolid : ∀ c ∈ lead.text, Rune.isBlank c = false)
    (hlead : (lead.text, kind) ∈ literalLeads) (hk : kind ≠ .nonEmptyString)
    (h : led lead kind r = .ok t s) : t.Formed := by
  have hword : Formed (.classified lead.text lead.position) := .classified _ hpiece hsolid
  unfold led at h
  split at h
  · cases h
  · cases h; exact hword
  · split at h
    · exact formed_ledLiteral hlead hk h
    · split at h
      · split at h
        · cases h
        · split at h
          · cases h
          · split at h
            · cases h
            · cases h; exact hword
      · cases h; exact hword

theorem formed_read (hr : r.HoldsPiece) (h : read r = .ok t s) : t.Formed := by
  unfold read at h
  split at h
  · cases h
  · cases h; exact .eos _
  · next f u hn =>
      obtain ⟨hpiece, hblank⟩ := hr.nextSolid hn
      have hsolid : ∀ c ∈ f.text, Rune.isBlank c = false :=
        fun c hc => (hpiece.isBlank_eq hc).trans hblank
      unfold ofFragment at h
      split at h
      · exact formed_plainLiteral h
      · split at h
        · cases h
        · split at h
          · next hunicode =>
              exact formed_led hpiece hsolid (by simp [hunicode, literalLeads]) (by decide) h
          · split at h
            · next hhex =>
                exact formed_led hpiece hsolid (by simp [hhex, literalLeads]) (by decide) h
            · cases h; exact .classified _ hpiece hsolid

theorem yields_read (hr : r.HoldsPiece) : Yields HoldsPiece Formed (read r) :=
  (ends_read keeps_holdsPiece hr).yields fun _ _ h => formed_read hr h

end Token

namespace TokenReader

variable {feed : Feed} {r : TokenReader}

/-- All tokens of a source are formed, whatever steps and productions have been made on it. -/
theorem Reached.formed (h : r.Reached feed) : r.Holds FragmentReader.HoldsPiece Token.Formed :=
  h.holds (fun _ => Token.yields_read) (by simp [FragmentReader.HoldsPiece, FragmentReader.ofFeed])

/-- The tokens that a step hands out or shows are formed. -/
theorem Reached.formed_step (h : r.Reached feed) {s : TokenStep} {ts : List Token}
    {u : TokenReader} (hs : TokenReader.step s r = .ok ts u) : ∀ t ∈ ts, t.Formed :=
  ((h.formed.step (fun _ => Token.yields_read) s).ok hs).2

/-- The tokens that a production takes are formed. -/
theorem Reached.formed_consumed (h : r.Reached feed) {α : Type} (production : Production α) :
    ∀ t ∈ r.consumed production, t.Formed :=
  (h.formed.run (fun _ => Token.yields_read) _).2

end TokenReader

end SoliditySource
