import SoliditySource.Proofs.Parse.Locality

/-! # What rules take

A run of a rule takes some tokens from its reader (`Rule.taken`), and the reader is left where
handing out these tokens leaves it. `Rule.Gathers` relates the tokens to the value a rule comes
to. It does not mention readers: a token that was looked at is the next one to come, and apart
from this anything may come.
-/

namespace SoliditySource

/-! ## Looking at a token -/

namespace TokenReader

variable {r s : TokenReader} {t : Token}

theorem next_of_peek (h : r.peek = .ok t s) : s.next = r.next ∧ s.held = some t := by
  have hnext : s.held = some t → s.next = .ok t { s with held := none } := by
    intro hheld
    rw [next, hheld]
  unfold peek at h
  split at h
  · next u hu =>
      cases h
      exact ⟨rfl, hu⟩
  · next hn =>
      split at h
      · next u v hr =>
          cases h
          refine ⟨?_, rfl⟩
          rw [hnext rfl, next, hn, hr]
      · cases h

theorem eq_of_held {u : Token} (hu : r.held = some u) :
    (r.peek = .ok t s → u = t) ∧ (r.next = .ok t s → u = t) := by
  unfold peek next
  rw [hu]
  constructor <;> intro h <;> cases h <;> rfl

/-- Readers with the same next token hand out the same tokens. -/
theorem Hands.congr {r' : TokenReader} {ts : List Token} (h : r.Hands ts s)
    (hr : r.next = r'.next) : ∃ s', r'.Hands ts s' ∧ s'.next = s.next := by
  cases h with
  | nil => exact ⟨r', .nil r', hr.symm⟩
  | cons hnext hs => exact ⟨s, .cons (hr.symm.trans hnext) hs, rfl⟩

end TokenReader

namespace Rule

variable {α β : Type}

/-! ## The tokens taken -/

/-- The tokens that following the rule takes from the reader. -/
def taken : Rule α → TokenReader → List Token
  | done _, _ => []
  | refuse _, _ => []
  | look next, r =>
      match r.peek with
      | .ok t s => (next t).taken s
      | .error _ _ => []
  | take next, r =>
      match r.next with
      | .ok t s => t :: (next t).taken s
      | .error _ _ => []
  | note _ next, r => next.taken r

/-- A reader that a rule was followed on stands where handing out the tokens taken leaves it. -/
theorem hands_taken (rule : Rule α) {r : TokenReader} {a : α} (h : (rule.run r).result = .ok a) :
    ∃ s, r.Hands (rule.taken r) s ∧ (rule.run r).reader.next = s.next := by
  induction rule generalizing r with
  | done value => exact ⟨r, .nil r, rfl⟩
  | refuse fault => cases h
  | look next ih =>
      cases hp : r.peek with
      | error e s => simp [run, hp] at h
      | ok t s =>
          simp only [run, hp] at h
          obtain ⟨u, hhands, hnext⟩ := ih t h
          obtain ⟨u', hhands', hnext'⟩ := hhands.congr (TokenReader.next_of_peek hp).1
          simp only [run, taken, hp]
          exact ⟨u', hhands', hnext.trans hnext'.symm⟩
  | take next ih =>
      cases hn : r.next with
      | error e s => simp [run, hn] at h
      | ok t s =>
          simp only [run, hn] at h
          obtain ⟨u, hhands, hnext⟩ := ih t h
          simp only [run, taken, hn]
          exact ⟨u, .cons hn hhands, hnext⟩
  | note event next ih => exact ih h

/-! ## Relating the tokens to the value -/

/-- Whatever tokens come, the next one being `seen` if there is such a token: when the rule comes
to a value, no end token was taken and `post` holds of the tokens taken and the value. -/
def Gathers : Rule α → (seen : Option Token) → (post : List Token → α → Prop) → Prop
  | done a, _, post => post [] a
  | refuse _, _, _ => True
  | look next, seen, post => ∀ t, (∀ u ∈ seen, u = t) → (next t).Gathers (some t) post
  | take next, seen, post =>
      ∀ t, (∀ u ∈ seen, u = t) → (next t).Gathers none fun ts a => t.kind ≠ .eos ∧ post (t :: ts) a
  | note _ next, seen, post => next.Gathers seen post

variable {rule : Rule α} {seen : Option Token} {post post' : List Token → α → Prop}

theorem Gathers.sound (h : rule.Gathers seen post) {r : TokenReader} {a : α}
    (hseen : ∀ t ∈ seen, r.held = some t) (hr : (rule.run r).result = .ok a) :
    (∀ t ∈ rule.taken r, t.kind ≠ .eos) ∧ post (rule.taken r) a := by
  induction rule generalizing seen post r with
  | done value =>
      cases hr
      exact ⟨by simp [taken], h⟩
  | refuse fault => cases hr
  | look next ih =>
      cases hp : r.peek with
      | error e s => simp [run, hp] at hr
      | ok t s =>
          simp only [run, hp] at hr
          simp only [taken, hp]
          apply ih t (h t fun u hu => (TokenReader.eq_of_held (hseen u hu)).1 hp) _ hr
          simpa using (TokenReader.next_of_peek hp).2
  | take next ih =>
      cases hn : r.next with
      | error e s => simp [run, hn] at hr
      | ok t s =>
          simp only [run, hn] at hr
          have hnext := h t fun u hu => (TokenReader.eq_of_held (hseen u hu)).2 hn
          obtain ⟨hkinds, ht, hpost⟩ := ih t hnext (by simp) hr
          simp only [taken, hn, List.forall_mem_cons]
          exact ⟨⟨ht, hkinds⟩, hpost⟩
  | note event next ih => exact ih h hseen hr

theorem Gathers.imp (h : rule.Gathers seen post) (himp : ∀ ts a, post ts a → post' ts a) :
    rule.Gathers seen post' := by
  induction rule generalizing seen post post' with
  | done value => exact himp _ _ h
  | refuse fault => exact h
  | look next ih => exact fun t ht => ih t (h t ht) himp
  | take next ih => exact fun t ht => ih t (h t ht) fun ts a hpost => ⟨hpost.1, himp _ _ hpost.2⟩
  | note event next ih => exact ih h himp

/-- What holds whatever comes holds if a certain token comes. -/
theorem Gathers.of_none (h : rule.Gathers none post) : rule.Gathers seen post := by
  induction rule generalizing post with
  | done value => exact h
  | refuse fault => exact h
  | look next ih => exact fun t _ => h t (by simp)
  | take next ih => exact fun t _ => h t (by simp)
  | note event next ih => exact ih h

theorem Gathers.bind {f : α → Rule β} {post : List Token → β → Prop}
    (h : rule.Gathers seen fun us a => (f a).Gathers none fun vs b => post (us ++ vs) b) :
    (rule >>= f).Gathers seen post := by
  change (rule.bind f).Gathers seen post
  induction rule generalizing seen post with
  | done value => exact h.of_none
  | refuse fault => exact h
  | look next ih => exact fun t ht => ih t (h t ht)
  | take next ih =>
      refine fun t ht => ih t ((h t ht).imp fun us a hpost => ?_)
      exact hpost.2.imp fun vs b hb => ⟨hpost.1, hb⟩
  | note event next ih => exact ih h

theorem Gathers.map {f : α → β} {post : List Token → β → Prop}
    (h : rule.Gathers seen fun ts a => post ts (f a)) : (f <$> rule).Gathers seen post := by
  rw [← bind_pure_comp]
  apply Gathers.bind
  apply h.imp
  intro ts a hpost
  show post (ts ++ []) (f a)
  simpa using hpost

/-! ## The combinators -/

section Combinators

variable {f : Token → Rule β} {g : Option Token → Rule β} {event : Event} {choice : Choice}
  {fits : TokenKind → Bool} {cause : Cause} {kind : TokenKind} {part : Missing} {t : Token}
  {later : List Token → β → Prop}

/-- A rule that is known is followed by the rule its value selects. -/
theorem Gathers.then {f : α → Rule β} (h : rule.Gathers none post)
    (hf : ∀ us a, post us a → (f a).Gathers none fun vs b => later (us ++ vs) b) :
    (rule >>= f).Gathers seen later :=
  Gathers.bind (h.of_none.imp hf)

theorem gathers_refuseAt : (refuseAt t cause : Rule α).Gathers seen post := trivial

theorem Gathers.peek_bind (h : ∀ t, (f t).Gathers (some t) later) :
    (peek >>= f).Gathers seen later :=
  fun t _ => h t

theorem Gathers.choose_bind (h : ∀ t, (f t).Gathers (some t) later) :
    (choose choice >>= f).Gathers seen later :=
  fun t _ => h t

theorem Gathers.log_bind {f : Unit → Rule β} (h : (f ()).Gathers seen later) :
    (log event >>= f).Gathers seen later :=
  h

theorem gathers_next {post : List Token → Token → Prop} (hkind : t.kind ≠ .eos)
    (h : post [t] t) : next.Gathers (some t) post := by
  intro u hu
  obtain rfl := hu t rfl
  exact ⟨hkind, h⟩

theorem Gathers.next_bind
    (h : ∀ t, (f t).Gathers none fun vs b => t.kind ≠ .eos ∧ later (t :: vs) b) :
    (next >>= f).Gathers seen later :=
  fun t _ => h t

theorem Gathers.takeIf_bind (hfits : fits .eos = false)
    (h : ∀ t, fits t.kind = true → (f t).Gathers none fun vs b => later (t :: vs) b) :
    (takeIf fits cause >>= f).Gathers seen later := by
  apply Gathers.bind
  apply Gathers.next_bind
  intro t
  by_cases ht : fits t.kind = true
  · rw [if_pos ht]
    refine ⟨fun hkind => ?_, h t ht⟩
    rw [hkind, hfits] at ht
    cases ht
  · rw [if_neg ht]
    exact gathers_refuseAt

theorem gathers_takeIf {post : List Token → Token → Prop} (hfits : fits .eos = false)
    (h : ∀ t, fits t.kind = true → post [t] t) : (takeIf fits cause).Gathers seen post := by
  rw [← bind_pure (takeIf fits cause)]
  exact Gathers.takeIf_bind hfits h

theorem Gathers.expect_bind (hkind : kind ≠ .eos)
    (h : ∀ t, t.kind = kind → (f t).Gathers none fun vs b => later (t :: vs) b) :
    (expect kind part >>= f).Gathers seen later :=
  Gathers.takeIf_bind (by simpa using hkind.symm) fun t ht => h t (of_decide_eq_true ht)

theorem Gathers.accept?_bind (hkind : kind ≠ .eos)
    (h : ∀ o, (∀ t ∈ o, t.kind = kind) →
      (g o).Gathers none fun vs b => later (o.toList ++ vs) b) :
    (accept? kind >>= g).Gathers seen later := by
  apply Gathers.bind
  apply Gathers.peek_bind
  intro t
  by_cases ht : t.kind = kind
  · rw [if_pos ht]
    apply Gathers.map
    apply gathers_next (by rwa [ht])
    exact h (some t) (by simpa using ht)
  · rw [if_neg ht]
    exact h none (by simp)

theorem gathers_whenNext {later : List Token → Option α → Prop} (h : rule.Gathers none post)
    (hnone : later [] none) (hsome : ∀ ts a, post ts a → later ts (some a)) :
    (whenNext kind rule).Gathers seen later := by
  apply Gathers.peek_bind
  intro t
  by_cases ht : t.kind = kind
  · rw [if_pos ht]
    exact Gathers.map (h.of_none.imp hsome)
  · rw [if_neg ht]
    exact hnone

end Combinators

end Rule

end SoliditySource
