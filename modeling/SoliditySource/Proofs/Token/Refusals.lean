import SoliditySource.Token.Reader

/-! # What reading a token refuses

Whatever a reader of fragments holds and whatever its feed delivers, reading a token refuses the
source for one of a few causes. A literal is opened at a quote that was taken or looked at, so it
is never refused for not starting with a quote.
-/

namespace SoliditySource

/-- The causes for which reading a token can refuse a source. -/
def Cause.isLexical : Cause → Bool
  | strayBackslash | unclosedQuote | detachedQuote _ | malformedHex => true
  | _ => false

/-- An error that is no refusal, or one for a cause of which `p` holds. -/
def SourceError.RefusedFor (p : Cause → Bool) : SourceError → Prop
  | refused fault => p fault.cause = true
  | unreadable _ => True

namespace FragmentReader

variable {r s : FragmentReader} {e : SourceError}

theorem nextQuoted_refused (h : nextQuoted r = .error e s) : e.RefusedFor Cause.isLexical := by
  unfold nextQuoted at h
  split at h
  · cases h
  · cases h; exact rfl
  · cases h; exact trivial

theorem closeQuote_refused {quote : List Char} (h : closeQuote quote r = .error e s) :
    e.RefusedFor Cause.isLexical := by
  fun_induction closeQuote quote r generalizing e s with
  | case1 r e' t hn => cases h; exact nextQuoted_refused hn
  | case2 r f t hn hb e' u hn' => cases h; exact nextQuoted_refused hn'
  | case3 r f t hn hb g u hn' text v hc ih => cases h
  | case4 r f t hn hb g u hn' e' v hc ih => cases h; exact ih hc
  | case5 r f t hn hb hq => cases h
  | case6 r f t hn hb hq text u hc ih => cases h
  | case7 r f t hn hb hq e' u hc ih => cases h; exact ih hc

theorem quoted_refused {opening : Fragment} (hopening : opening.isQuote = true)
    (h : quoted opening r = .error e s) : e.RefusedFor Cause.isLexical := by
  unfold quoted at h
  rw [if_pos hopening] at h
  split at h
  · cases h
  · next hc => cases h; exact closeQuote_refused hc

theorem skipBlanks_refused (h : skipBlanks r = .error e s) : e.RefusedFor Cause.isLexical := by
  fun_induction skipBlanks r with
  | case1 r cause t hp => cases h; exact trivial
  | case2 r t hp => cases h
  | case3 r f t hp hb ih => exact ih h
  | case4 r f t hp hb => cases h

/-- The fragment that was looked at is the next one of a literal. -/
theorem nextQuoted_held {f : Fragment} (h : r.held = some f) :
    nextQuoted r = .ok f { r with held := none } := by
  rw [nextQuoted, next, h]

end FragmentReader

namespace Token

open FragmentReader

variable {r s : FragmentReader} {e : SourceError}

theorem ledLiteral_refused {lead opening : Fragment} {kind : TokenKind}
    (hheld : r.held = some opening) (hopening : opening.isQuote = true)
    (h : ledLiteral lead kind r = .error e s) : e.RefusedFor Cause.isLexical := by
  unfold ledLiteral at h
  rw [nextQuoted_held hheld] at h
  dsimp only at h
  split at h
  · next hq => cases h; exact quoted_refused hopening hq
  · split at h
    · cases h; exact rfl
    · cases h

theorem led_refused {lead : Fragment} {kind : TokenKind} (h : led lead kind r = .error e s) :
    e.RefusedFor Cause.isLexical := by
  unfold led at h
  split at h
  · cases h; exact trivial
  · cases h
  · next f t hp =>
      split at h
      · next hopening => exact ledLiteral_refused (peek_held hp).2 hopening.1 h
      · split at h
        · split at h
          · next hs => cases h; exact skipBlanks_refused hs
          · split at h
            · cases h; exact trivial
            · split at h
              · cases h; exact rfl
              · cases h
        · cases h

theorem ofFragment_refused {f : Fragment} (h : ofFragment f r = .error e s) :
    e.RefusedFor Cause.isLexical := by
  unfold ofFragment at h
  split at h
  · next hopening =>
      unfold plainLiteral at h
      split at h
      · cases h
      · next hq => cases h; exact quoted_refused hopening hq
  · split at h
    · cases h; exact rfl
    · split at h
      · exact led_refused h
      · split at h
        · exact led_refused h
        · cases h

theorem read_refused (h : read r = .error e s) : e.RefusedFor Cause.isLexical := by
  unfold read at h
  split at h
  · cases h; exact trivial
  · cases h
  · exact ofFragment_refused h

end Token

namespace TokenReader

variable {r s : TokenReader} {e : SourceError}

theorem next_refused (h : r.next = .error e s) : e.RefusedFor Cause.isLexical := by
  unfold next at h
  split at h
  · cases h
  · split at h
    · cases h
    · next hread => cases h; exact Token.read_refused hread

theorem peek_refused (h : r.peek = .error e s) : e.RefusedFor Cause.isLexical := by
  unfold peek at h
  split at h
  · cases h
  · split at h
    · cases h
    · next hread => cases h; exact Token.read_refused hread

end TokenReader

end SoliditySource
