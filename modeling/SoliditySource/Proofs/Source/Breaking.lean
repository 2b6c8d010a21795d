import SoliditySource.Session

/-! # A feed that breaks off

Two feeds may answer alike up to a failure of the first one. Steps on readers of these feeds
do the same until one of them runs into the failure, and then it ends in that failure: it is
not taken for the end of the source, and nothing is decided by guessing at what comes.
-/

namespace SoliditySource

/-- The feeds answer alike until the first one fails with `cause`; from there on both may
answer anything. -/
inductive Feed.BreaksOff (cause : ReadFailure) : Feed → Feed → Prop where
  | failed (rest feed : Feed) : BreaksOff cause (next (.fault cause) rest) feed
  | same (feed : Feed) : BreaksOff cause feed feed
  | next (d : Delivery) {feed feed' : Feed} (h : BreaksOff cause feed feed') :
      BreaksOff cause (next d feed) (next d feed')

/-- The outcomes are the same and leave readers that are `near` each other, unless the first
one has `stopped`. -/
inductive Matches {ε ρ α : Type} (near : ρ → ρ → Prop) (stopped : ε) :
    EStateM.Result ε ρ α → EStateM.Result ε ρ α → Prop where
  | stop (s : ρ) (y : EStateM.Result ε ρ α) : Matches near stopped (.error stopped s) y
  | ok (a : α) {s s' : ρ} (h : near s s') : Matches near stopped (.ok a s) (.ok a s')
  | error (e : ε) {s s' : ρ} (h : near s s') : Matches near stopped (.error e s) (.error e s')

namespace Matches

variable {ε ρ α : Type} {near : ρ → ρ → Prop} {stopped : ε} {x y : EStateM.Result ε ρ α}

theorem of_ok (h : Matches near stopped x y) {a : α} {s : ρ} (hx : x = .ok a s) :
    ∃ s', y = .ok a s' ∧ near s s' := by
  cases h with
  | stop s y => cases hx
  | ok a hs => cases hx; exact ⟨_, rfl, hs⟩
  | error e hs => cases hx

/-- An error that is handed on, perhaps as another one, is handed on by the second step too. -/
theorem pass {ε' β : Type} {e : ε} {e' stopped' : ε'} {s : ρ} (h : Matches near stopped x y)
    (hx : x = .error e s) (he : e = stopped → e' = stopped') {z : EStateM.Result ε' ρ β}
    (hz : ∀ s', y = .error e s' → z = .error e' s') :
    Matches near stopped' (.error e' s) z := by
  cases h with
  | stop s y => cases hx; rw [he rfl]; exact .stop _ _
  | ok a hs => cases hx
  | error e hs => cases hx; rw [hz _ rfl]; exact .error _ hs

end Matches

variable {cause : ReadFailure}

theorem Feed.BreaksOff.pull {feed feed' : Feed} (h : feed.BreaksOff cause feed') :
    feed.pull.1 = .fault cause ∨
      feed.pull.1 = feed'.pull.1 ∧ feed.pull.2.BreaksOff cause feed'.pull.2 := by
  cases h with
  | failed rest feed => exact .inl rfl
  | same feed => exact .inr ⟨rfl, .same _⟩
  | next d h => exact .inr ⟨rfl, h⟩

/-! ## Fragments -/

namespace FragmentReader

/-- Readers in the same state, on feeds of which the first one may break off. -/
inductive BreaksOff (cause : ReadFailure) : FragmentReader → FragmentReader → Prop where
  | mk {feed feed' : Feed} (h : feed.BreaksOff cause feed') (pending : List Char)
      (cursor : Position) (held : Option Fragment) :
      BreaksOff cause ⟨feed, pending, cursor, held⟩ ⟨feed', pending, cursor, held⟩

variable {r r' : FragmentReader}

theorem BreaksOff.advance (h : r.BreaksOff cause r') {c : Char} :
    BreaksOff cause { r with pending := r.pending.tail, cursor := r.cursor.after c }
      { r' with pending := r'.pending.tail, cursor := r'.cursor.after c } := by
  cases h with
  | mk h pending cursor held => exact .mk h ..

theorem BreaksOff.hold (h : r.BreaksOff cause r') (f : Option Fragment) :
    BreaksOff cause { r with held := f } { r' with held := f } := by
  cases h with
  | mk h pending cursor held => exact .mk h ..

theorem BreaksOff.held_eq (h : r.BreaksOff cause r') : r.held = r'.held := by
  cases h with
  | mk h pending cursor held => rfl

theorem BreaksOff.position_eq (h : r.BreaksOff cause r') : r.position = r'.position := by
  cases h with
  | mk h pending cursor held => rfl

theorem matches_lookAhead (h : r.BreaksOff cause r') (n : Nat) :
    Matches (BreaksOff cause) cause (lookAhead n r) (lookAhead n r') := by
  cases h with
  | @mk feed feed' h pending cursor held =>
      have hpull := h.pull
      unfold lookAhead
      dsimp only
      split
      · exact .ok _ (.mk h ..)
      · generalize feed.pull = x, feed'.pull = y at hpull ⊢
        obtain ⟨d, rest⟩ := x
        obtain ⟨d', rest'⟩ := y
        dsimp only at hpull
        cases hpull with
        | inl hd => rw [hd]; exact .stop _ _
        | inr hpull =>
            obtain ⟨rfl, hrest⟩ := hpull
            cases d with
            | rune c => exact .ok _ (.mk hrest ..)
            | pause => exact .ok _ (.mk hrest ..)
            | fault e => exact .error _ (.mk hrest ..)

theorem matches_takeRunes (h : r.BreaksOff cause r') (n : Nat) :
    Matches (BreaksOff cause) cause (takeRunes n r) (takeRunes n r') := by
  cases h with
  | mk h pending cursor held => exact .ok _ (.mk h ..)

theorem matches_longestOperator (h : r.BreaksOff cause r') (n : Nat) (op : List Char) :
    Matches (BreaksOff cause) cause (longestOperator n op r) (longestOperator n op r') := by
  induction n generalizing op r r' with
  | zero => exact .ok _ h
  | succ n ih =>
      have hl := matches_lookAhead h op.length
      unfold longestOperator
      split
      · exact .ok _ h
      · simp only [bind, EStateM.bind]
        generalize lookAhead op.length r = x, lookAhead op.length r' = y at hl ⊢
        cases hl with
        | stop s y => exact .stop _ _
        | error e hs => exact .error _ hs
        | ok a hs =>
            cases a with
            | none => exact .ok _ hs
            | some c =>
                dsimp only
                split
                · exact ih hs _
                · exact .ok _ hs

theorem takeWhile_eq (p : Char → Bool) (r : FragmentReader) :
    takeWhile p r =
      match lookAhead 0 r with
      | .error cause s => .error cause s
      | .ok none s => .ok [] s
      | .ok (some c) s =>
          if p c then
            match takeWhile p { s with pending := s.pending.tail, cursor := s.cursor.after c } with
            | .ok text t => .ok (c :: text) t
            | .error cause t => .error cause t
          else .ok [] s := by
  rw [takeWhile]
  split
  · next hl => rw [hl]
  · next hl => rw [hl]
  · next hl => exact hl ▸ rfl

/-- By induction on the runes that the first reader takes. -/
theorem matches_takeWhile (h : r.BreaksOff cause r') (p : Char → Bool) :
    Matches (BreaksOff cause) cause (takeWhile p r) (takeWhile p r') := by
  fun_induction takeWhile p r generalizing r' with
  | case1 r e s hl =>
      exact (matches_lookAhead h 0).pass hl id fun s' hy => by rw [takeWhile_eq, hy]
  | case2 r s hl =>
      obtain ⟨s', hy, hs⟩ := (matches_lookAhead h 0).of_ok hl
      rw [takeWhile_eq, hy]
      exact .ok _ hs
  | case3 r c s hl hp text t ht ih =>
      obtain ⟨s', hy, hs⟩ := (matches_lookAhead h 0).of_ok hl
      obtain ⟨t', hy', ht'⟩ := (ih hs.advance).of_ok ht
      rw [takeWhile_eq, hy]
      simp only [if_pos hp, hy']
      exact .ok _ ht'
  | case4 r c s hl hp e t ht ih =>
      obtain ⟨s', hy, hs⟩ := (matches_lookAhead h 0).of_ok hl
      rw [takeWhile_eq, hy]
      simp only [if_pos hp]
      exact (ih hs.advance).pass ht id fun t' hy' => by rw [hy']
  | case5 r c s hl hp =>
      obtain ⟨s', hy, hs⟩ := (matches_lookAhead h 0).of_ok hl
      rw [takeWhile_eq, hy]
      simp only [if_neg hp]
      exact .ok _ hs

theorem matches_lexeme (h : r.BreaksOff cause r') (first : Char) :
    Matches (BreaksOff cause) cause (lexeme first r) (lexeme first r') := by
  unfold lexeme
  split
  · have ho := matches_longestOperator h 3 [first]
    generalize longestOperator 3 [first] r = x, longestOperator 3 [first] r' = y at ho ⊢
    cases ho with
    | stop s y => exact .stop _ _
    | error e hs => exact .error _ hs
    | ok op hs => exact matches_takeRunes hs _
  · split
    · exact matches_takeRunes h 1
    · split
      · exact matches_takeWhile h _
      · exact matches_takeWhile h _

theorem matches_cut (h : r.BreaksOff cause r') :
    Matches (BreaksOff cause) cause (cut r) (cut r') := by
  have hl := matches_lookAhead h 0
  unfold cut
  generalize lookAhead 0 r = x, lookAhead 0 r' = y at hl ⊢
  cases hl with
  | stop s y => exact .stop _ _
  | error e hs => exact .error _ hs
  | ok a hs =>
      cases a with
      | none => exact .ok _ hs
      | some first =>
          rename_i s s'
          have hx := matches_lexeme hs first
          dsimp only
          generalize lexeme first s = x, lexeme first s' = y at hx ⊢
          cases hx with
          | stop s y => exact .stop _ _
          | error e ht => exact .error _ ht
          | ok text ht => cases hs with | mk hs pending cursor held => exact .ok _ ht

theorem matches_next (h : r.BreaksOff cause r') :
    Matches (BreaksOff cause) cause (next r) (next r') := by
  unfold next
  rw [← h.held_eq]
  split
  · exact .ok _ (h.hold none)
  · exact matches_cut h

theorem matches_peek (h : r.BreaksOff cause r') :
    Matches (BreaksOff cause) cause (peek r) (peek r') := by
  unfold peek
  rw [← h.held_eq]
  split
  · exact .ok _ h
  · have hc := matches_cut h
    generalize cut r = x, cut r' = y at hc ⊢
    cases hc with
    | stop s y => exact .stop _ _
    | ok f hs => exact .ok _ (hs.hold f)
    | error e hs => exact .error _ hs

theorem nextSolid_eq (r : FragmentReader) :
    nextSolid r =
      match next r with
      | .error cause s => .error cause s
      | .ok none s => .ok none s
      | .ok (some f) s => if f.isBlank then nextSolid s else .ok (some f) s := by
  rw [nextSolid]
  split
  · next hn => rw [hn]
  · next hn => rw [hn]
  · next hn => rw [hn]

theorem matches_nextSolid (h : r.BreaksOff cause r') :
    Matches (BreaksOff cause) cause (nextSolid r) (nextSolid r') := by
  fun_induction nextSolid r generalizing r' with
  | case1 r e s hn =>
      exact (matches_next h).pass hn id fun s' hy => by rw [nextSolid_eq, hy]
  | case2 r s hn =>
      obtain ⟨s', hy, hs⟩ := (matches_next h).of_ok hn
      rw [nextSolid_eq, hy]
      exact .ok _ hs
  | case3 r f s hn hb ih =>
      obtain ⟨s', hy, hs⟩ := (matches_next h).of_ok hn
      rw [nextSolid_eq r', hy]
      simp only [if_pos hb]
      exact ih hs
  | case4 r f s hn hb =>
      obtain ⟨s', hy, hs⟩ := (matches_next h).of_ok hn
      rw [nextSolid_eq, hy]
      simp only [if_neg hb]
      exact .ok _ hs

/-! ## Literals -/

theorem matches_nextQuoted (h : r.BreaksOff cause r') :
    Matches (BreaksOff cause) (.unreadable cause) (nextQuoted r) (nextQuoted r') := by
  have hn := matches_next h
  unfold nextQuoted
  generalize next r = x, next r' = y at hn ⊢
  cases hn with
  | stop s y => exact .stop _ _
  | error e hs => exact .error _ hs
  | ok f hs =>
      cases f with
      | some f => exact .ok _ hs
      | none =>
          dsimp only
          rw [hs.position_eq]
          exact .error _ hs

theorem closeQuote_eq (quote : List Char) (r : FragmentReader) :
    closeQuote quote r =
      match nextQuoted r with
      | .error e s => .error e s
      | .ok f s =>
          if f.isBackslash then
            match nextQuoted s with
            | .error e t => .error e t
            | .ok g t =>
                match closeQuote quote t with
                | .ok text u => .ok (f.text ++ g.text ++ text) u
                | .error e u => .error e u
          else if f.text = quote then .ok f.text s
          else
            match closeQuote quote s with
            | .ok text t => .ok (f.text ++ text) t
            | .error e t => .error e t := by
  rw [closeQuote]
  split
  · next hn => rw [hn]
  · next f s hn =>
      rw [hn]
      dsimp only
      congr 1
      split
      · next hn' => rw [hn']
      · next hn' => exact hn' ▸ rfl

theorem matches_closeQuote (h : r.BreaksOff cause r') (quote : List Char) :
    Matches (BreaksOff cause) (.unreadable cause) (closeQuote quote r)
      (closeQuote quote r') := by
  fun_induction closeQuote quote r generalizing r' with
  | case1 r e s hn =>
      exact (matches_nextQuoted h).pass hn id fun s' hy => by rw [closeQuote_eq, hy]
  | case2 r f s hn hb e t hn' =>
      obtain ⟨s', hy, hs⟩ := (matches_nextQuoted h).of_ok hn
      rw [closeQuote_eq, hy]
      simp only [if_pos hb]
      exact (matches_nextQuoted hs).pass hn' id fun t' hy' => by rw [hy']
  | case3 r f s hn hb g t hn' text u hc ih =>
      obtain ⟨s', hy, hs⟩ := (matches_nextQuoted h).of_ok hn
      obtain ⟨t', hy', ht⟩ := (matches_nextQuoted hs).of_ok hn'
      obtain ⟨u', hy'', hu⟩ := (ih ht).of_ok hc
      rw [closeQuote_eq, hy]
      simp only [if_pos hb, hy', hy'']
      exact .ok _ hu
  | case4 r f s hn hb g t hn' e u hc ih =>
      obtain ⟨s', hy, hs⟩ := (matches_nextQuoted h).of_ok hn
      obtain ⟨t', hy', ht⟩ := (matches_nextQuoted hs).of_ok hn'
      rw [closeQuote_eq, hy]
      simp only [if_pos hb, hy']
      exact (ih ht).pass hc id fun u' hy'' => by rw [hy'']
  | case5 r f s hn hb hq =>
      obtain ⟨s', hy, hs⟩ := (matches_nextQuoted h).of_ok hn
      rw [closeQuote_eq, hy]
      simp only [if_neg hb, if_pos hq]
      exact .ok _ hs
  | case6 r f s hn hb hq text t hc ih =>
      obtain ⟨s', hy, hs⟩ := (matches_nextQuoted h).of_ok hn
      obtain ⟨t', hy', ht⟩ := (ih hs).of_ok hc
      rw [closeQuote_eq, hy]
      simp only [if_neg hb, if_neg hq, hy']
      exact .ok _ ht
  | case7 r f s hn hb hq e t hc ih =>
      obtain ⟨s', hy, hs⟩ := (matches_nextQuoted h).of_ok hn
      rw [closeQuote_eq, hy]
      simp only [if_neg hb, if_neg hq]
      exact (ih hs).pass hc id fun t' hy' => by rw [hy']

theorem matches_quoted (h : r.BreaksOff cause r') (opening : Fragment) :
    Matches (BreaksOff cause) (.unreadable cause) (quoted opening r) (quoted opening r') := by
  unfold quoted
  split
  · have hc := matches_closeQuote h opening.text
    generalize closeQuote opening.text r = x, closeQuote opening.text r' = y at hc ⊢
    cases hc with
    | stop s y => exact .stop _ _
    | ok text hs => exact .ok _ hs
    | error e hs => exact .error _ hs
  · exact .error _ h

theorem skipBlanks_eq (r : FragmentReader) :
    skipBlanks r =
      match peek r with
      | .error cause s => .error (.unreadable cause) s
      | .ok none s => .ok () s
      | .ok (some f) s => if f.isBlank then skipBlanks { s with held := none } else .ok () s := by
  rw [skipBlanks]
  split
  · next hp => rw [hp]
  · next hp => rw [hp]
  · next hp => rw [hp]

theorem matches_skipBlanks (h : r.BreaksOff cause r') :
    Matches (BreaksOff cause) (.unreadable cause) (skipBlanks r) (skipBlanks r') := by
  fun_induction skipBlanks r generalizing r' with
  | case1 r e s hp =>
      exact (matches_peek h).pass hp (congrArg _) fun s' hy => by
        rw [skipBlanks_eq, hy]
  | case2 r s hp =>
      obtain ⟨s', hy, hs⟩ := (matches_peek h).of_ok hp
      rw [skipBlanks_eq, hy]
      exact .ok _ hs
  | case3 r f s hp hb ih =>
      obtain ⟨s', hy, hs⟩ := (matches_peek h).of_ok hp
      rw [skipBlanks_eq r', hy]
      simp only [if_pos hb]
      exact ih (hs.hold none)
  | case4 r f s hp hb =>
      obtain ⟨s', hy, hs⟩ := (matches_peek h).of_ok hp
      rw [skipBlanks_eq, hy]
      simp only [if_neg hb]
      exact .ok _ hs

end FragmentReader

/-! ## Tokens -/

namespace Token

open FragmentReader

variable {r r' : FragmentReader}

theorem matches_plainLiteral (h : r.BreaksOff cause r') (opening : Fragment) :
    Matches (BreaksOff cause) (.unreadable cause) (plainLiteral opening r)
      (plainLiteral opening r') := by
  have hq := matches_quoted h opening
  unfold plainLiteral
  generalize quoted opening r = x, quoted opening r' = y at hq ⊢
  cases hq with
  | stop s y => exact .stop _ _
  | ok text hs => exact .ok _ hs
  | error e hs => exact .error _ hs

theorem matches_ledLiteral (h : r.BreaksOff cause r') (lead : Fragment) (kind : TokenKind) :
    Matches (BreaksOff cause) (.unreadable cause) (ledLiteral lead kind r)
      (ledLiteral lead kind r') := by
  have hn := matches_nextQuoted h
  unfold ledLiteral
  generalize nextQuoted r = x, nextQuoted r' = y at hn ⊢
  cases hn with
  | stop s y => exact .stop _ _
  | error e hs => exact .error _ hs
  | @ok opening s s' hs =>
      have hq := matches_quoted hs opening
      dsimp only
      generalize quoted opening s = x, quoted opening s' = y at hq ⊢
      cases hq with
      | stop s y => exact .stop _ _
      | error e ht => exact .error _ ht
      | ok text ht =>
          dsimp only
          split
          · exact .error _ ht
          · exact .ok _ ht

theorem matches_led (h : r.BreaksOff cause r') (lead : Fragment) (kind : TokenKind) :
    Matches (BreaksOff cause) (.unreadable cause) (led lead kind r) (led lead kind r') := by
  have hp := matches_peek h
  unfold led
  generalize peek r = x, peek r' = y at hp ⊢
  cases hp with
  | stop s y => exact .stop _ _
  | error e hs => exact .error _ hs
  | @ok f s s' hs =>
      cases f with
      | none => exact .ok _ hs
      | some f =>
          dsimp only
          split
          · exact matches_ledLiteral hs lead kind
          · split
            · have hb := matches_skipBlanks hs
              generalize skipBlanks s = x, skipBlanks s' = y at hb ⊢
              cases hb with
              | stop s y => exact .stop _ _
              | error e ht => exact .error _ ht
              | @ok _ t t' ht =>
                  have hg := matches_peek ht
                  dsimp only
                  generalize peek t = x, peek t' = y at hg ⊢
                  cases hg with
                  | stop s y => exact .stop _ _
                  | error e hu => exact .error _ hu
                  | ok g hu =>
                      dsimp only
                      split
                      · exact .error _ hu
                      · exact .ok _ hu
            · exact .ok _ hs

theorem matches_ofFragment (h : r.BreaksOff cause r') (f : Fragment) :
    Matches (BreaksOff cause) (.unreadable cause) (ofFragment f r) (ofFragment f r') := by
  unfold ofFragment
  split
  · exact matches_plainLiteral h f
  · split
    · exact .error _ h
    · split
      · exact matches_led h f _
      · split
        · exact matches_led h f _
        · exact .ok _ h

theorem matches_read (h : r.BreaksOff cause r') :
    Matches (BreaksOff cause) (.unreadable cause) (read r) (read r') := by
  have hn := matches_nextSolid h
  unfold read
  generalize nextSolid r = x, nextSolid r' = y at hn ⊢
  cases hn with
  | stop s y => exact .stop _ _
  | error e hs => exact .error _ hs
  | ok f hs =>
      cases f with
      | some f => exact matches_ofFragment hs f
      | none =>
          dsimp only
          rw [hs.position_eq]
          exact .ok _ hs

end Token

namespace TokenReader

/-- Readers in the same state, on feeds of which the first one may break off. -/
inductive BreaksOff (cause : ReadFailure) : TokenReader → TokenReader → Prop where
  | mk {r r' : FragmentReader} (h : r.BreaksOff cause r') (held : Option Token) :
      BreaksOff cause ⟨r, held⟩ ⟨r', held⟩

variable {r r' : TokenReader}

theorem BreaksOff.position_eq (h : r.BreaksOff cause r') : r.position = r'.position := by
  cases h with
  | mk h held =>
      cases held with
      | none => exact h.position_eq
      | some t => rfl

theorem matches_next (h : r.BreaksOff cause r') :
    Matches (BreaksOff cause) (.unreadable cause) (next r) (next r') := by
  cases h with
  | @mk r r' h held =>
      unfold next
      dsimp only
      split
      · exact .ok _ (.mk h none)
      · have ht := Token.matches_read h
        generalize Token.read r = x, Token.read r' = y at ht ⊢
        cases ht with
        | stop s y => exact .stop _ _
        | ok t hs => exact .ok _ (.mk hs _)
        | error e hs => exact .error _ (.mk hs _)

theorem matches_peek (h : r.BreaksOff cause r') :
    Matches (BreaksOff cause) (.unreadable cause) (peek r) (peek r') := by
  cases h with
  | @mk r r' h held =>
      unfold peek
      dsimp only
      split
      · exact .ok _ (.mk h _)
      · have ht := Token.matches_read h
        generalize Token.read r = x, Token.read r' = y at ht ⊢
        cases ht with
        | stop s y => exact .stop _ _
        | ok t hs => exact .ok _ (.mk hs _)
        | error e hs => exact .error _ (.mk hs _)

theorem all_eq (r : TokenReader) :
    all r =
      match next r with
      | .error e s => .error e s
      | .ok t s =>
          if t.isEos then .ok [t] s
          else
            match all s with
            | .ok ts u => .ok (t :: ts) u
            | .error e u => .error e u := by
  rw [all]
  split
  · next hn => rw [hn]
  · next hn => rw [hn]; rfl

theorem matches_all (h : r.BreaksOff cause r') :
    Matches (BreaksOff cause) (.unreadable cause) (all r) (all r') := by
  fun_induction all r generalizing r' with
  | case1 r e s hn =>
      exact (matches_next h).pass hn id fun s' hy => by rw [all_eq, hy]
  | case2 r t s hn ht =>
      obtain ⟨s', hy, hs⟩ := (matches_next h).of_ok hn
      rw [all_eq, hy]
      simp only [if_pos ht]
      exact .ok _ hs
  | case3 r t s hn ht ts u ha ih =>
      obtain ⟨s', hy, hs⟩ := (matches_next h).of_ok hn
      obtain ⟨u', hy', hu⟩ := (ih hs).of_ok ha
      rw [all_eq, hy]
      simp only [if_neg ht, hy']
      exact .ok _ hu
  | case4 r t s hn ht e u ha ih =>
      obtain ⟨s', hy, hs⟩ := (matches_next h).of_ok hn
      rw [all_eq, hy]
      simp only [if_neg ht]
      exact (ih hs).pass ha id fun u' hy' => by rw [hy']

end TokenReader

/-- A rule that does not meet the failure comes to the same result with the same events. -/
theorem Rule.run_breaksOff {α : Type} (rule : Rule α) {r r' : TokenReader}
    (h : r.BreaksOff cause r') :
    (rule.run r).result = .error (.unreadable cause) ∨
      (rule.run r).result = (rule.run r').result ∧ (rule.run r).events = (rule.run r').events ∧
        (rule.run r).reader.BreaksOff cause (rule.run r').reader := by
  induction rule generalizing r r' with
  | done value => exact .inr ⟨rfl, rfl, h⟩
  | refuse fault => exact .inr ⟨rfl, rfl, h⟩
  | look next ih =>
      have hp := TokenReader.matches_peek h
      unfold run
      generalize r.peek = x, r'.peek = y at hp ⊢
      cases hp with
      | stop s y => exact .inl rfl
      | ok t hs => exact ih t hs
      | error e hs => exact .inr ⟨rfl, rfl, hs⟩
  | take next ih =>
      have hn := TokenReader.matches_next h
      unfold run
      generalize r.next = x, r'.next = y at hn ⊢
      cases hn with
      | stop s y => exact .inl rfl
      | ok t hs => exact ih t hs
      | error e hs => exact .inr ⟨rfl, rfl, hs⟩
  | note event next ih =>
      cases ih h with
      | inl hstop => exact .inl hstop
      | inr hrest => exact .inr ⟨hrest.1, congrArg (event :: ·) hrest.2.1, hrest.2.2⟩

end SoliditySource
