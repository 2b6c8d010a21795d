import SoliditySource.Error
import SoliditySource.Fragment.Reader

/-! # Quoted literals

A literal goes from an opening quote to the next quote of the same sort. Inside it a
backslash takes the fragment after it as it is. The body of a `hex` literal is a run
of byte pairs that single underscores may group.
-/

namespace SoliditySource

/-- A step of putting fragments together. It may refuse the source or fail to read it,
and changes the reader even then. -/
abbrev Lex (α : Type) := EStateM SourceError FragmentReader α

namespace FragmentReader

def nextQuoted : Lex Fragment := fun r =>
  match next r with
  | .ok (some f) s => .ok f s
  | .ok none s => .error (.refused ⟨s.position, .unclosedQuote⟩) s
  | .error cause s => .error (.unreadable cause) s

theorem weight_nextQuoted {r s : FragmentReader} {f : Fragment} (h : nextQuoted r = .ok f s) :
    s.weight < r.weight := by
  unfold nextQuoted at h
  split at h
  · next g t hn => cases h; exact weight_next hn
  · cases h
  · cases h

/-- The rest of a literal that `quote` opened, up to and with the quote that closes it. -/
def closeQuote (quote : List Char) (r : FragmentReader) :
    EStateM.Result SourceError FragmentReader (List Char) :=
  match _h : nextQuoted r with
  | .error e s => .error e s
  | .ok f s =>
      if f.isBackslash then
        match _h' : nextQuoted s with
        | .error e t => .error e t
        | .ok g t =>
            match closeQuote quote t with
            | .ok text u => .ok (f.text ++ g.text ++ text) u
            | .error e u => .error e u
      else if f.text = quote then .ok f.text s
      else
        match closeQuote quote s with
        | .ok text t => .ok (f.text ++ text) t
        | .error e t => .error e t
termination_by r.weight
decreasing_by
  · exact Nat.lt_trans (weight_nextQuoted _h') (weight_nextQuoted _h)
  · exact weight_nextQuoted _h

/-- The literal that starts with the fragment `opening`, both quotes included. -/
def quoted (opening : Fragment) : Lex (List Char) := fun r =>
  if opening.isQuote then
    match closeQuote opening.text r with
    | .ok text s => .ok (opening.text ++ text) s
    | .error e s => .error e s
  else .error (.refused ⟨opening.position, .noOpeningQuote⟩) r

theorem weight_closeQuote {quote text : List Char} {r s : FragmentReader}
    (h : closeQuote quote r = .ok text s) : s.weight ≤ r.weight := by
  fun_induction closeQuote quote r generalizing text s with
  | case1 r e t hn => cases h
  | case2 r f t hn hb e u hn' => cases h
  | case3 r f t hn hb g u hn' text' v hc ih =>
      cases h
      have h1 := weight_nextQuoted hn
      have h2 := weight_nextQuoted hn'
      have h3 := ih hc
      omega
  | case4 r f t hn hb g u hn' e v hc ih => cases h
  | case5 r f t hn hb hq => cases h; exact Nat.le_of_lt (weight_nextQuoted hn)
  | case6 r f t hn hb hq text' u hc ih =>
      cases h
      have h1 := weight_nextQuoted hn
      have h2 := ih hc
      omega
  | case7 r f t hn hb hq e u hc ih => cases h

theorem weight_quoted {opening : Fragment} {text : List Char} {r s : FragmentReader}
    (h : quoted opening r = .ok text s) : s.weight ≤ r.weight := by
  unfold quoted at h
  split at h
  · split at h
    · next t u hc => cases h; exact weight_closeQuote hc
    · cases h
  · cases h

end FragmentReader

/-! ## The body of a `hex` literal -/

namespace HexBody

/-- The groups between the underscores of `body`. -/
def groups : List Char → List (List Char)
  | [] => [[]]
  | c :: rest =>
      if c = '_' then [] :: groups rest
      else
        match groups rest with
        | [] => [[c]]
        | first :: others => (c :: first) :: others

def isGroup (group : List Char) : Bool :=
  !group.isEmpty && group.length % 2 == 0 && group.all Rune.isHexDigit

/-- Holds when `body` may stand between the quotes of a `hex` literal. -/
def isValid (body : List Char) : Bool := body.isEmpty || (groups body).all isGroup

end HexBody

end SoliditySource
