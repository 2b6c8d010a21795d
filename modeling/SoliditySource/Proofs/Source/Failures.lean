import SoliditySource.Session

/-! # Where failures come from

A reader has no failures of its own: every failure to read that a step meets is one that
its feed holds, and the feed that is left holds no others.
-/

namespace SoliditySource

/-- Every failure that the feed can answer with is one of `p`. -/
def Feed.FailsOnly (p : ReadFailure → Prop) : Feed → Prop
  | finished => True
  | blocked => p .malformed
  | next (.fault cause) rest => p cause ∧ rest.FailsOnly p
  | next (.rune _) rest => rest.FailsOnly p
  | next .pause rest => rest.FailsOnly p

/-- An error that is no failure to read other than one of `p`. -/
def SourceError.FailsOnly (p : ReadFailure → Prop) : SourceError → Prop
  | refused _ => True
  | unreadable cause => p cause

/-- The step ends in a reader of which `inv` holds, and with no error but one of `p`. -/
def Ends {ε ρ α : Type} (inv : ρ → Prop) (p : ε → Prop) : EStateM.Result ε ρ α → Prop
  | .ok _ s => inv s
  | .error e s => p e ∧ inv s

theorem Ends.ok {ε ρ α : Type} {inv : ρ → Prop} {p : ε → Prop}
    {x : EStateM.Result ε ρ α} {a : α} {s : ρ} (h : Ends inv p x) (hx : x = .ok a s) :
    inv s := by
  rwa [hx] at h

theorem Ends.error {ε ρ α : Type} {inv : ρ → Prop} {p : ε → Prop}
    {x : EStateM.Result ε ρ α} {e : ε} {s : ρ} (h : Ends inv p x) (hx : x = .error e s) :
    p e ∧ inv s := by
  rwa [hx] at h

/-- The reader that a step leaves, whether or not it fails. -/
def left {ε ρ α : Type} : EStateM.Result ε ρ α → ρ
  | .ok _ s => s
  | .error _ s => s

theorem Ends.left {ε ρ α : Type} {inv : ρ → Prop} {p : ε → Prop}
    {x : EStateM.Result ε ρ α} (h : Ends inv p x) : inv (left x) := by
  cases x with
  | ok a s => exact h
  | error e s => exact h.2

theorem Ends.of_left {ε ρ α : Type} {inv : ρ → Prop} {x : EStateM.Result ε ρ α}
    (h : inv (SoliditySource.left x)) : Ends inv (fun _ => True) x := by
  cases x with
  | ok a s => exact h
  | error e s => exact ⟨trivial, h⟩

/-- The reader that steps in a row leave. -/
def leftBy {ε ρ σ α : Type} (step : σ → EStateM ε ρ α) (steps : List σ) (r : ρ) : ρ :=
  steps.foldl (fun r s => left (step s r)) r

/-- What every step keeps, a run of steps keeps. -/
theorem leftBy_induction {ε ρ σ α : Type} {step : σ → EStateM ε ρ α} {inv : ρ → Prop}
    (hstep : ∀ s {r}, inv r → inv (left (step s r))) {r : ρ} (h : inv r) (steps : List σ) :
    inv (leftBy step steps r) := by
  induction steps generalizing r with
  | nil => exact h
  | cons s steps ih => exact ih (hstep s h)

variable {p : ReadFailure → Prop}

theorem Feed.failsOnly_pull {feed : Feed} (h : feed.FailsOnly p) :
    feed.pull.2.FailsOnly p ∧ ∀ cause, feed.pull.1 = .fault cause → p cause := by
  cases feed with
  | finished => exact ⟨h, fun cause hc => by cases hc⟩
  | blocked => exact ⟨h, fun cause hc => by cases hc; exact h⟩
  | next d rest =>
      cases d with
      | rune c => exact ⟨h, fun cause hc => by cases hc⟩
      | pause => exact ⟨h, fun cause hc => by cases hc⟩
      | fault e => exact ⟨h.2, fun cause hc => by cases hc; exact h.1⟩

/-- A property that every request keeps, and under which a request fails with none but `p`,
makes all failures of a feed ones of `p`. -/
theorem Feed.failsOnly_of_pull {inv : Feed → Prop}
    (hpull : ∀ feed, inv feed →
      inv feed.pull.2 ∧ ∀ cause, feed.pull.1 = .fault cause → p cause)
    {feed : Feed} (h : inv feed) : feed.FailsOnly p := by
  induction feed with
  | finished => trivial
  | blocked => exact (hpull blocked h).2 .malformed rfl
  | next d rest ih =>
      have hrest := ih (hpull (next d rest) h).1
      cases d with
      | rune c => exact hrest
      | pause => exact hrest
      | fault cause => exact ⟨(hpull (next (.fault cause) rest) h).2 cause rfl, hrest⟩

/-! ## Fragments -/

namespace FragmentReader

/-- Every failure that is still to come is one of `p`. -/
def FailsOnly (p : ReadFailure → Prop) (r : FragmentReader) : Prop := r.feed.FailsOnly p

variable {r : FragmentReader}

theorem ends_lookAhead (h : r.FailsOnly p) (n : Nat) :
    Ends (FailsOnly p) p (lookAhead n r) := by
  obtain ⟨hrest, hfault⟩ := Feed.failsOnly_pull h
  unfold lookAhead
  split
  · exact h
  · split
    · next hp => rw [hp] at hrest; exact hrest
    · next hp => rw [hp] at hrest; exact hrest
    · next cause rest hp =>
        rw [hp] at hrest hfault
        exact ⟨hfault cause rfl, hrest⟩

theorem ends_longestOperator (h : r.FailsOnly p) (n : Nat) (op : List Char) :
    Ends (FailsOnly p) p (longestOperator n op r) := by
  induction n generalizing op r with
  | zero => exact h
  | succ n ih =>
      have ha := ends_lookAhead h op.length
      unfold longestOperator
      split
      · exact h
      · simp only [bind, EStateM.bind]
        cases hl : lookAhead op.length r with
        | error e s => rw [hl] at ha; exact ha
        | ok a s =>
            rw [hl] at ha
            cases a with
            | none => exact ha
            | some c =>
                dsimp only
                split
                · exact ih ha _
                · exact ha

theorem ends_takeWhile (h : r.FailsOnly p) (fits : Char → Bool) :
    Ends (FailsOnly p) p (takeWhile fits r) := by
  fun_induction takeWhile fits r with
  | case1 r cause s hl => exact (ends_lookAhead h 0).error hl
  | case2 r s hl => exact (ends_lookAhead h 0).ok hl
  | case3 r c s hl hf text t ht ih =>
      have hs := (ends_lookAhead h 0).ok hl
      exact (ih hs).ok ht
  | case4 r c s hl hf cause t ht ih =>
      have hs := (ends_lookAhead h 0).ok hl
      exact (ih hs).error ht
  | case5 r c s hl hf => exact (ends_lookAhead h 0).ok hl

theorem ends_lexeme (h : r.FailsOnly p) (first : Char) :
    Ends (FailsOnly p) p (lexeme first r) := by
  unfold lexeme
  split
  · split
    · next hl =>
        have hs := (ends_longestOperator h 3 [first]).ok hl
        exact hs
    · next hl => exact (ends_longestOperator h 3 [first]).error hl
  · split
    · exact h
    · split
      · exact ends_takeWhile h _
      · exact ends_takeWhile h _

theorem ends_cut (h : r.FailsOnly p) : Ends (FailsOnly p) p (cut r) := by
  unfold cut
  split
  · next hl => exact (ends_lookAhead h 0).error hl
  · next hl => exact (ends_lookAhead h 0).ok hl
  · next first s hl =>
      have hx := ends_lexeme ((ends_lookAhead h 0).ok hl) first
      split
      · next ht => exact hx.ok ht
      · next ht => exact hx.error ht

theorem ends_next (h : r.FailsOnly p) : Ends (FailsOnly p) p (next r) := by
  unfold next
  split
  · exact h
  · exact ends_cut h

theorem ends_peek (h : r.FailsOnly p) : Ends (FailsOnly p) p (peek r) := by
  unfold peek
  split
  · exact h
  · split
    · next hc =>
        have hs := (ends_cut h).ok hc
        exact hs
    · next hc => exact (ends_cut h).error hc

/-- Handing out a fragment and looking at it keep the invariant and fail with one of `p` only,
and dropping the fragment that is held keeps the invariant too. -/
structure Keeps (inv : FragmentReader → Prop) (p : ReadFailure → Prop) : Prop where
  next : ∀ {r}, inv r → Ends inv p (next r)
  peek : ∀ {r}, inv r → Ends inv p (peek r)
  release : ∀ {r}, inv r → inv { r with held := none }

theorem keeps_failsOnly (p : ReadFailure → Prop) : Keeps (FailsOnly p) p :=
  ⟨ends_next, ends_peek, id⟩

variable {inv : FragmentReader → Prop}

theorem ends_nextSolid (k : Keeps inv p) (h : inv r) : Ends inv p (nextSolid r) := by
  fun_induction nextSolid r with
  | case1 r cause s hn => exact (k.next h).error hn
  | case2 r s hn => exact (k.next h).ok hn
  | case3 r f s hn hb ih => exact ih ((k.next h).ok hn)
  | case4 r f s hn hb => exact (k.next h).ok hn

/-! ## Literals -/

theorem ends_nextQuoted (k : Keeps inv p) (h : inv r) :
    Ends inv (SourceError.FailsOnly p) (nextQuoted r) := by
  unfold nextQuoted
  split
  · next hn => exact (k.next h).ok hn
  · next hn => exact ⟨trivial, (k.next h).ok hn⟩
  · next hn => exact (k.next h).error hn

theorem ends_closeQuote (k : Keeps inv p) (h : inv r) (quote : List Char) :
    Ends inv (SourceError.FailsOnly p) (closeQuote quote r) := by
  fun_induction closeQuote quote r with
  | case1 r e s hn => exact (ends_nextQuoted k h).error hn
  | case2 r f s hn hb e t hn' => exact (ends_nextQuoted k ((ends_nextQuoted k h).ok hn)).error hn'
  | case3 r f s hn hb g t hn' text u hc ih =>
      have ht := (ends_nextQuoted k ((ends_nextQuoted k h).ok hn)).ok hn'
      exact (ih ht).ok hc
  | case4 r f s hn hb g t hn' e u hc ih =>
      have ht := (ends_nextQuoted k ((ends_nextQuoted k h).ok hn)).ok hn'
      exact (ih ht).error hc
  | case5 r f s hn hb hq => exact (ends_nextQuoted k h).ok hn
  | case6 r f s hn hb hq text t hc ih => exact (ih ((ends_nextQuoted k h).ok hn)).ok hc
  | case7 r f s hn hb hq e t hc ih => exact (ih ((ends_nextQuoted k h).ok hn)).error hc

theorem ends_quoted (k : Keeps inv p) (h : inv r) (opening : Fragment) :
    Ends inv (SourceError.FailsOnly p) (quoted opening r) := by
  unfold quoted
  split
  · split
    · next hc => exact (ends_closeQuote k h opening.text).ok hc
    · next hc => exact (ends_closeQuote k h opening.text).error hc
  · exact ⟨trivial, h⟩

theorem ends_skipBlanks (k : Keeps inv p) (h : inv r) :
    Ends inv (SourceError.FailsOnly p) (skipBlanks r) := by
  fun_induction skipBlanks r with
  | case1 r cause s hp => exact (k.peek h).error hp
  | case2 r s hp => exact (k.peek h).ok hp
  | case3 r f s hp hb ih =>
      have hs := (k.peek h).ok hp
      exact ih (k.release hs)
  | case4 r f s hp hb => exact (k.peek h).ok hp

end FragmentReader

/-! ## Tokens -/

namespace Token

open FragmentReader

variable {inv : FragmentReader → Prop} {r : FragmentReader}

theorem ends_ledLiteral (k : Keeps inv p) (h : inv r) (lead : Fragment) (kind : TokenKind) :
    Ends inv (SourceError.FailsOnly p) (ledLiteral lead kind r) := by
  unfold ledLiteral
  split
  · next hn => exact (ends_nextQuoted k h).error hn
  · next opening s hn =>
      have hq := ends_quoted k ((ends_nextQuoted k h).ok hn) opening
      split
      · next ht => exact hq.error ht
      · next ht =>
          split
          · exact ⟨trivial, hq.ok ht⟩
          · exact hq.ok ht

theorem ends_led (k : Keeps inv p) (h : inv r) (lead : Fragment) (kind : TokenKind) :
    Ends inv (SourceError.FailsOnly p) (led lead kind r) := by
  unfold led
  split
  · next hp => exact (k.peek h).error hp
  · next hp => exact (k.peek h).ok hp
  · next f s hp =>
      have hs := (k.peek h).ok hp
      split
      · exact ends_ledLiteral k hs lead kind
      · split
        · split
          · next ht => exact (ends_skipBlanks k hs).error ht
          · next t ht =>
              have hy := k.peek ((ends_skipBlanks k hs).ok ht)
              split
              · next hg => exact hy.error hg
              · next hg =>
                  split
                  · exact ⟨trivial, hy.ok hg⟩
                  · exact hy.ok hg
        · exact hs

theorem ends_ofFragment (k : Keeps inv p) (h : inv r) (f : Fragment) :
    Ends inv (SourceError.FailsOnly p) (ofFragment f r) := by
  unfold ofFragment
  split
  · unfold plainLiteral
    split
    · next ht => exact (ends_quoted k h f).ok ht
    · next ht => exact (ends_quoted k h f).error ht
  · split
    · exact ⟨trivial, h⟩
    · split
      · exact ends_led k h f _
      · split
        · exact ends_led k h f _
        · exact h

theorem ends_read (k : Keeps inv p) (h : inv r) :
    Ends inv (SourceError.FailsOnly p) (read r) := by
  unfold read
  split
  · next hn => exact (ends_nextSolid k h).error hn
  · next hn => exact (ends_nextSolid k h).ok hn
  · next f s hn => exact ends_ofFragment k ((ends_nextSolid k h).ok hn) f

end Token

namespace TokenReader

/-- Every failure that is still to come is one of `p`. -/
def FailsOnly (p : ReadFailure → Prop) (r : TokenReader) : Prop := r.fragments.FailsOnly p

variable {r : TokenReader}

theorem ends_next (h : r.FailsOnly p) :
    Ends (FailsOnly p) (SourceError.FailsOnly p) (next r) := by
  unfold next
  split
  · exact h
  · split
    · next ht =>
        have hs := (Token.ends_read (FragmentReader.keeps_failsOnly p) h).ok ht
        exact hs
    · next ht =>
        have hs := (Token.ends_read (FragmentReader.keeps_failsOnly p) h).error ht
        exact hs

theorem ends_peek (h : r.FailsOnly p) :
    Ends (FailsOnly p) (SourceError.FailsOnly p) (peek r) := by
  unfold peek
  split
  · exact h
  · split
    · next ht =>
        have hs := (Token.ends_read (FragmentReader.keeps_failsOnly p) h).ok ht
        exact hs
    · next ht =>
        have hs := (Token.ends_read (FragmentReader.keeps_failsOnly p) h).error ht
        exact hs

theorem ends_all (h : r.FailsOnly p) :
    Ends (FailsOnly p) (SourceError.FailsOnly p) (all r) := by
  fun_induction all r with
  | case1 r e s hn => exact (ends_next h).error hn
  | case2 r t s hn ht => exact (ends_next h).ok hn
  | case3 r t s hn ht ts u ha ih => exact (ih ((ends_next h).ok hn)).ok ha
  | case4 r t s hn ht e u ha ih => exact (ih ((ends_next h).ok hn)).error ha

end TokenReader

/-- Following a rule meets no failure but those that are to come. -/
theorem Rule.ends_run {α : Type} (rule : Rule α) {r : TokenReader} (h : r.FailsOnly p) :
    (rule.run r).reader.FailsOnly p ∧
      ∀ e, (rule.run r).result = .error e → e.FailsOnly p := by
  induction rule generalizing r with
  | done value => exact ⟨h, fun e he => by cases he⟩
  | refuse fault => exact ⟨h, fun e he => by cases he; trivial⟩
  | look next ih =>
      have hx := TokenReader.ends_peek h
      rw [run]
      cases hp : r.peek with
      | ok t s => exact ih t (hx.ok hp)
      | error e s => exact ⟨(hx.error hp).2, fun e' he => by cases he; exact (hx.error hp).1⟩
  | take next ih =>
      have hx := TokenReader.ends_next h
      rw [run]
      cases hn : r.next with
      | ok t s => exact ih t (hx.ok hn)
      | error e s => exact ⟨(hx.error hn).2, fun e' he => by cases he; exact (hx.error hn).1⟩
  | note event next ih => exact ih h

end SoliditySource
