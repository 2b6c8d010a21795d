import SoliditySource.Proofs.Rule.Gathers
import SoliditySource.Proofs.Token.Refusals

/-! # What rules refuse

A rule often looks at the next token and then follows a rule that takes it. The second rule gets
the very token that the first one looked at, because the reader holds it. `Rule.RefusesOnly` says
for which causes a rule can refuse a token, given the token that was looked at.
-/

namespace SoliditySource

namespace Rule

variable {α β : Type} {p : Cause → Bool} {seen : Option Token} {rule : Rule α}

/-- Whatever tokens come, the next one being `seen` if there is such a token: the rule refuses
none of them but for a cause of which `p` holds. -/
def RefusesOnly (p : Cause → Bool) : Rule α → (seen : Option Token) → Prop
  | done _, _ => True
  | refuse fault, _ => p fault.cause = true
  | look next, seen => ∀ t, (∀ u ∈ seen, u = t) → (next t).RefusesOnly p (some t)
  | take next, seen => ∀ t, (∀ u ∈ seen, u = t) → (next t).RefusesOnly p none
  | note _ next, seen => next.RefusesOnly p seen

/-- By induction on the rule: the token that was looked at is held, so it is the one that comes
next, whatever the feed delivers. -/
theorem RefusesOnly.sound (h : rule.RefusesOnly p seen)
    (hlexical : ∀ cause, cause.isLexical = true → p cause = true) {r : TokenReader}
    (hseen : ∀ t ∈ seen, r.held = some t) {e : SourceError}
    (hr : (rule.run r).result = .error e) : e.RefusedFor p := by
  have hread : e.RefusedFor Cause.isLexical → e.RefusedFor p := by
    intro he
    cases e with
    | refused fault => exact hlexical fault.cause he
    | unreadable failure => trivial
  induction rule generalizing seen r with
  | done value => cases hr
  | refuse fault => cases hr; exact h
  | look next ih =>
      cases hp : r.peek with
      | error e' s =>
          simp only [run, hp] at hr
          cases hr
          exact hread (TokenReader.peek_refused hp)
      | ok t s =>
          simp only [run, hp] at hr
          apply ih t (h t fun u hu => (TokenReader.eq_of_held (hseen u hu)).1 hp) _ hr
          simpa using (TokenReader.next_of_peek hp).2
  | take next ih =>
      cases hn : r.next with
      | error e' s =>
          simp only [run, hn] at hr
          cases hr
          exact hread (TokenReader.next_refused hn)
      | ok t s =>
          simp only [run, hn] at hr
          exact ih t (h t fun u hu => (TokenReader.eq_of_held (hseen u hu)).2 hn) (by simp) hr
  | note event next ih => exact ih h hseen hr

/-- What holds whatever comes holds if a certain token comes. -/
theorem RefusesOnly.of_none (h : rule.RefusesOnly p none) : rule.RefusesOnly p seen := by
  induction rule generalizing seen with
  | done value => exact h
  | refuse fault => exact h
  | look next ih => exact fun t _ => h t (by simp)
  | take next ih => exact fun t _ => h t (by simp)
  | note event next ih => exact ih h

/-! ## The combinators -/

theorem refusesOnly_pure (a : α) : (pure a : Rule α).RefusesOnly p seen := trivial

theorem refusesOnly_refuseAt {t : Token} {cause : Cause} (hc : p cause = true) :
    (refuseAt t cause : Rule α).RefusesOnly p seen :=
  hc

theorem RefusesOnly.bind {f : α → Rule β} (h : rule.RefusesOnly p seen)
    (hf : ∀ a, (f a).RefusesOnly p none) : (rule >>= f).RefusesOnly p seen := by
  change (rule.bind f).RefusesOnly p seen
  induction rule generalizing seen with
  | done value => exact (hf value).of_none
  | refuse fault => exact h
  | look next ih => exact fun t ht => ih t (h t ht)
  | take next ih => exact fun t ht => ih t (h t ht)
  | note event next ih => exact ih h

theorem RefusesOnly.map (h : rule.RefusesOnly p seen) (f : α → β) :
    (f <$> rule).RefusesOnly p seen := by
  rw [← bind_pure_comp]
  exact h.bind fun a => refusesOnly_pure _

theorem RefusesOnly.log_bind {event : Event} {f : Unit → Rule β}
    (h : (f ()).RefusesOnly p seen) : (log event >>= f).RefusesOnly p seen :=
  h

theorem RefusesOnly.peek_bind {f : Token → Rule β} (h : ∀ t, (f t).RefusesOnly p (some t)) :
    (peek >>= f).RefusesOnly p seen :=
  fun t _ => h t

theorem RefusesOnly.choose_bind {choice : Choice} {f : Token → Rule β}
    (h : ∀ t, (f t).RefusesOnly p (some t)) : (choose choice >>= f).RefusesOnly p seen :=
  fun t _ => h t

theorem RefusesOnly.next_bind {f : Token → Rule β}
    (h : ∀ t, (∀ u ∈ seen, u = t) → (f t).RefusesOnly p none) :
    (next >>= f).RefusesOnly p seen :=
  h

theorem refusesOnly_next : next.RefusesOnly p seen := fun _ _ => trivial

/-- A token that fits is not refused. -/
theorem refusesOnly_takeIf {fits : TokenKind → Bool} {cause : Cause}
    (h : (∃ t ∈ seen, fits t.kind = true) ∨ p cause = true) :
    (takeIf fits cause).RefusesOnly p seen := by
  apply RefusesOnly.next_bind
  intro t ht
  split
  · exact refusesOnly_pure t
  · next hnot =>
      cases h with
      | inl hfits =>
          obtain ⟨u, hu, hfits⟩ := hfits
          rw [ht u hu] at hfits
          exact absurd hfits hnot
      | inr hc => exact refusesOnly_refuseAt hc

theorem refusesOnly_expect {kind : TokenKind} {part : Missing}
    (h : (∃ t ∈ seen, t.kind = kind) ∨ p (.missing part) = true) :
    (expect kind part).RefusesOnly p seen :=
  refusesOnly_takeIf (by simpa using h)

theorem refusesOnly_whenNext {kind : TokenKind}
    (h : ∀ t, t.kind = kind → rule.RefusesOnly p (some t)) :
    (whenNext kind rule).RefusesOnly p seen := by
  apply RefusesOnly.peek_bind
  intro t
  split
  · next ht => exact (h t ht).map some
  · exact refusesOnly_pure none

theorem refusesOnly_accept? {kind : TokenKind} : (accept? kind).RefusesOnly p seen :=
  refusesOnly_whenNext fun _ _ => refusesOnly_next

theorem refusesOnly_separatedBy {separator : TokenKind} (h : rule.RefusesOnly p none)
    (limit : Nat) : (separatedBy separator rule limit).RefusesOnly p seen := by
  induction limit generalizing seen with
  | zero => exact h.of_none.bind fun a => refusesOnly_pure _
  | succ limit ih =>
      apply h.of_none.bind
      intro a
      apply refusesOnly_accept?.bind
      intro o
      cases o with
      | none => exact refusesOnly_pure _
      | some mark => exact ih.bind fun rest => refusesOnly_pure _

end Rule

end SoliditySource
