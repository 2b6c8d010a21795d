import SoliditySource.Token.Basic
import SoliditySource.Token.Literal

/-! # Putting fragments together into tokens

Blank fragments are dropped; quotes open literals; the words `unicode` and `hex` lead
a literal when a quote touches them, and are refused when only blanks keep a quote
away from them. Every other fragment is a token by itself. At the end of the source
the reader keeps answering with an end token.
-/

namespace SoliditySource

namespace FragmentReader

def skipBlanks (r : FragmentReader) : EStateM.Result SourceError FragmentReader Unit :=
  match _h : peek r with
  | .error cause s => .error (.unreadable cause) s
  | .ok none s => .ok () s
  | .ok (some f) s => if f.isBlank then skipBlanks { s with held := none } else .ok () s
termination_by r.weight
decreasing_by
  obtain ⟨hw, hs⟩ := peek_held _h
  simp only [weight, hs, Option.isSome_some, Option.isSome_none, if_true] at hw ⊢
  simp only [Bool.false_eq_true, if_false]
  omega

theorem weight_skipBlanks {r s : FragmentReader} (h : skipBlanks r = .ok () s) :
    s.weight ≤ r.weight := by
  fun_induction skipBlanks r with
  | case1 r cause t hp => cases h
  | case2 r t hp => cases h; exact weight_peek hp
  | case3 r f t hp hb ih =>
      obtain ⟨hw, hs⟩ := peek_held hp
      have := ih h
      simp only [weight, hs, Option.isSome_some, Option.isSome_none, if_true] at hw this ⊢
      simp only [Bool.false_eq_true, if_false] at this
      omega
  | case4 r f t hp hb => cases h; exact weight_peek hp

end FragmentReader

namespace Token

open FragmentReader

def plainLiteral (opening : Fragment) : Lex Token := fun r =>
  match quoted opening r with
  | .ok text s =>
      .ok ⟨if text.length = 2 then .emptyString else .nonEmptyString, text, opening.position⟩ s
  | .error e s => .error e s

/-- The literal of the given kind that the word `lead` leads; a quote comes next. -/
def ledLiteral (lead : Fragment) (kind : TokenKind) : Lex Token := fun r =>
  match nextQuoted r with
  | .error e s => .error e s
  | .ok opening s =>
      match quoted opening s with
      | .error e t => .error e t
      | .ok text t =>
          if kind = .hexString ∧ !HexBody.isValid text.tail.dropLast then
            .error (.refused ⟨opening.position, .malformedHex⟩) t
          else .ok ⟨kind, lead.text ++ text, lead.position⟩ t

/-- The token that starts with the word `lead`, which leads literals of the given kind
when a quote touches it and is an ordinary word otherwise. -/
def led (lead : Fragment) (kind : TokenKind) : Lex Token := fun r =>
  match peek r with
  | .error cause s => .error (.unreadable cause) s
  | .ok none s => .ok (.classified lead.text lead.position) s
  | .ok (some f) s =>
      if f.isQuote ∧ f.position = lead.next then ledLiteral lead kind s
      else if f.isBlank then
        match skipBlanks s with
        | .error e t => .error e t
        | .ok () t =>
            match peek t with
            | .error cause u => .error (.unreadable cause) u
            | .ok g u =>
                if g.any Fragment.isQuote then
                  .error (.refused ⟨f.position, .detachedQuote lead.text⟩) u
                else .ok (.classified lead.text lead.position) u
      else .ok (.classified lead.text lead.position) s

def ofFragment (f : Fragment) : Lex Token := fun r =>
  if f.isQuote then plainLiteral f r
  else if f.isBackslash then .error (.refused ⟨f.position, .strayBackslash⟩) r
  else if f.text = "unicode".toList then led f .unicodeString r
  else if f.text = "hex".toList then led f .hexString r
  else .ok (.classified f.text f.position) r

/-- Reads the next token; the end of the input is a token too. -/
def read : Lex Token := fun r =>
  match nextSolid r with
  | .error cause s => .error (.unreadable cause) s
  | .ok none s => .ok (.eos s.position) s
  | .ok (some f) s => ofFragment f s

theorem weight_ofFragment {f : Fragment} {t : Token} {r s : FragmentReader}
    (h : ofFragment f r = .ok t s) : s.weight ≤ r.weight := by
  have hled : ∀ kind, led f kind r = .ok t s → s.weight ≤ r.weight := by
    intro kind hl
    unfold led at hl
    split at hl
    · cases hl
    · next hp => cases hl; exact weight_peek hp
    · next g u hp =>
        have hu := weight_peek hp
        split at hl
        · unfold ledLiteral at hl
          split at hl
          · cases hl
          · next hn =>
              split at hl
              · cases hl
              · next hq =>
                  split at hl
                  · cases hl
                  · cases hl
                    have h1 := weight_nextQuoted hn
                    have h2 := weight_quoted hq
                    omega
        · split at hl
          · split at hl
            · cases hl
            · next v hs =>
                have hv := weight_skipBlanks hs
                split at hl
                · cases hl
                · next hp' =>
                    have hw := weight_peek hp'
                    split at hl
                    · cases hl
                    · cases hl; omega
          · cases hl; exact hu
  unfold ofFragment at h
  split at h
  · unfold plainLiteral at h
    split at h
    · next hq => cases h; exact weight_quoted hq
    · cases h
  · split at h
    · cases h
    · split at h
      · exact hled _ h
      · split at h
        · exact hled _ h
        · cases h; exact Nat.le_refl _

theorem weight_read {t : Token} {r s : FragmentReader} (h : read r = .ok t s)
    (ht : t.isEos = false) : s.weight < r.weight := by
  unfold read at h
  split at h
  · cases h
  · cases h; simp [isEos, eos] at ht
  · next f u hn => exact Nat.lt_of_le_of_lt (weight_ofFragment h) (weight_nextSolid hn)

end Token

structure TokenReader where
  fragments : FragmentReader
  /-- A token that was looked at and is not handed out yet. -/
  held : Option Token

namespace TokenReader

def ofFeed (feed : Feed) : TokenReader := ⟨.ofFeed feed, none⟩

/-- Where the reader stands: at the token it holds, or where the next fragment starts. -/
def position (r : TokenReader) : Position :=
  match r.held with
  | some t => t.position
  | none => r.fragments.position

/-- A bound on the number of tokens to come, end tokens apart. -/
def weight (r : TokenReader) : Nat :=
  r.fragments.weight + if r.held.any (!·.isEos) then 1 else 0

def next : EStateM SourceError TokenReader Token := fun r =>
  match r.held with
  | some t => .ok t { r with held := none }
  | none =>
      match Token.read r.fragments with
      | .ok t s => .ok t { r with fragments := s }
      | .error e s => .error e { r with fragments := s }

/-- Looks at the next token and holds it. -/
def peek : EStateM SourceError TokenReader Token := fun r =>
  match r.held with
  | some t => .ok t r
  | none =>
      match Token.read r.fragments with
      | .ok t s => .ok t ⟨s, some t⟩
      | .error e s => .error e { r with fragments := s }

theorem weight_next {r s : TokenReader} {t : Token} (h : next r = .ok t s)
    (ht : t.isEos = false) : s.weight < r.weight := by
  unfold next at h
  split at h
  · next u hu => cases h; simp [weight, hu, ht]
  · next hn =>
      split at h
      · next u v hr =>
          cases h
          have := Token.weight_read hr ht
          simpa [weight, hn] using this
      · cases h

/-- Hands out all tokens up to and with the end token. -/
def all (r : TokenReader) : EStateM.Result SourceError TokenReader (List Token) :=
  match _h : next r with
  | .error e s => .error e s
  | .ok t s =>
      if _ht : t.isEos then .ok [t] s
      else
        match all s with
        | .ok ts u => .ok (t :: ts) u
        | .error e u => .error e u
termination_by r.weight
decreasing_by exact weight_next _h (by simpa using _ht)

end TokenReader

end SoliditySource
