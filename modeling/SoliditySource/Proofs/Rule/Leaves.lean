import SoliditySource.Proofs.Rule.Follow

/-! # What a rule leaves

A rule that comes to a value leaves the tokens behind those it took. A rule that refuses a token
leaves it where it was only looked at, and has taken it otherwise; which of the two it was is
told by the cause of the refusal.
-/

namespace SoliditySource

namespace Verdict

variable {α β : Type} {looked : Cause → Bool} {eos : Token} {ts rest : List Token}

/-- The tokens left are the last ones of `ts`. A refusal stands at a token of which the cause
tells whether it is left too. -/
def Leaves (looked : Cause → Bool) (eos : Token) (ts : List Token) : Verdict α → Prop
  | value _ rest => rest <:+ ts
  | refusal fault rest => ∃ back, back <:+ ts ∧ fault.position = (back.headD eos).position ∧
      rest = if looked fault.cause then back else back.tail
  | starved => True

theorem Leaves.of_isSuffix {v : Verdict α} (h : v.Leaves looked eos rest) (hs : rest <:+ ts) :
    v.Leaves looked eos ts := by
  cases v with
  | value a left => exact h.trans hs
  | refusal fault left =>
      obtain ⟨back, hback, hp, hleft⟩ := h
      exact ⟨back, hback.trans hs, hp, hleft⟩
  | starved => trivial

theorem Leaves.bind {v : Verdict α} (h : v.Leaves looked eos ts)
    {w : α → List Token → Verdict β}
    (hw : ∀ a rest, v = value a rest → (w a rest).Leaves looked eos rest) :
    (v.bind w).Leaves looked eos ts := by
  cases v with
  | value a rest => exact (hw a rest rfl).of_isSuffix h
  | refusal fault rest => exact h
  | starved => trivial

end Verdict

namespace Rule

variable {α β : Type} {looked : Cause → Bool} {eos : Token} {ts : List Token}
  {n : Nat} {seen : Option Token} {rule : Rule α}

theorem head?_or_eq (ts : List Token) (eos : Token) :
    ts.head?.or (some eos) = some (ts.headD eos) := by
  cases ts <;> rfl

/-- What the verdicts of the rule on fewer than `n` tokens leave, when `seen` is the next token
if there is such a token. -/
def Leaves (looked : Cause → Bool) (eos : Token) (n : Nat) (seen : Option Token)
    (rule : Rule α) : Prop :=
  ∀ ts : List Token, ts.length < n → (∀ t ∈ seen, t = ts.headD eos) →
    (rule.follow (some eos) ts).Leaves looked eos ts

theorem Leaves.of_none (h : rule.Leaves looked eos n none) : rule.Leaves looked eos n seen :=
  fun ts hlen _ => h ts hlen (by simp)

theorem leaves_pure (a : α) : (pure a : Rule α).Leaves looked eos n seen :=
  fun _ _ _ => List.suffix_rfl

theorem Leaves.bind {f : α → Rule β} (h : rule.Leaves looked eos n seen)
    (hf : ∀ a, (f a).Leaves looked eos n none) : (rule >>= f).Leaves looked eos n seen := by
  intro ts hlen hts
  rw [follow_bind]
  have hv := h ts hlen hts
  refine hv.bind fun a rest hvalue => hf a rest ?_ (by simp)
  rw [hvalue] at hv
  exact Nat.lt_of_le_of_lt hv.length_le hlen

theorem Leaves.map (h : rule.Leaves looked eos n seen) (f : α → β) :
    (f <$> rule).Leaves looked eos n seen := by
  rw [← bind_pure_comp]
  exact h.bind fun a => leaves_pure _

theorem Leaves.log_bind {event : Event} {f : Unit → Rule β}
    (h : (f ()).Leaves looked eos n seen) : (log event >>= f).Leaves looked eos n seen :=
  h

/-- A token that is looked at is left by the refusal that it brings about. -/
theorem leaves_refuseAt {t : Token} {cause : Cause} (hc : looked cause = true) :
    (refuseAt t cause : Rule α).Leaves looked eos n (some t) := by
  intro ts hlen hts
  refine ⟨ts, List.suffix_rfl, ?_, ?_⟩
  · rw [hts t rfl]
  · simp only [hc, if_true]

theorem Leaves.peek_bind {f : Token → Rule β} (h : ∀ t, (f t).Leaves looked eos n (some t)) :
    (peek >>= f).Leaves looked eos n seen := by
  intro ts hlen hts
  rw [follow_peek_bind, head?_or_eq]
  exact h _ ts hlen (by simp)

theorem Leaves.choose_bind {choice : Choice} {f : Token → Rule β}
    (h : ∀ t, (f t).Leaves looked eos n (some t)) :
    (choose choice >>= f).Leaves looked eos n seen := by
  intro ts hlen hts
  rw [follow_choose_bind]
  exact peek_bind h ts hlen hts

/-- A token that is taken is not left by the refusal that it brings about. -/
theorem Leaves.next_bind {f : Token → Rule β}
    (h : ∀ t, (f t).Leaves looked eos n none ∨
      ∃ cause, f t = refuseAt t cause ∧ looked cause = false) :
    (next >>= f).Leaves looked eos n seen := by
  intro ts hlen hts
  rw [follow_next_bind, head?_or_eq]
  dsimp only
  obtain hleaves | ⟨cause, hrefuse, hc⟩ := h (ts.headD eos)
  · have hle := (List.tail_suffix ts).length_le
    exact (hleaves ts.tail (Nat.lt_of_le_of_lt hle hlen) (by simp)).of_isSuffix
      (List.tail_suffix ts)
  · rw [hrefuse]
    refine ⟨ts, List.suffix_rfl, rfl, ?_⟩
    simp only [hc, Bool.false_eq_true, if_false]

theorem leaves_next : next.Leaves looked eos n seen := by
  rw [← bind_pure next]
  exact Leaves.next_bind fun t => .inl (leaves_pure t)

theorem leaves_takeIf {fits : TokenKind → Bool} {cause : Cause} (hc : looked cause = false) :
    (takeIf fits cause).Leaves looked eos n seen := by
  apply Leaves.next_bind
  intro t
  split
  · exact .inl (leaves_pure t)
  · exact .inr ⟨cause, rfl, hc⟩

theorem leaves_expect {kind : TokenKind} {part : Missing} (hc : looked (.missing part) = false) :
    (expect kind part).Leaves looked eos n seen :=
  leaves_takeIf hc

theorem leaves_whenNext {kind : TokenKind} (h : rule.Leaves looked eos n none) :
    (whenNext kind rule).Leaves looked eos n seen := by
  apply Leaves.peek_bind
  intro t
  split
  · exact h.of_none.map some
  · exact leaves_pure none

theorem leaves_accept? {kind : TokenKind} : (accept? kind).Leaves looked eos n seen :=
  leaves_whenNext leaves_next

theorem leaves_separatedBy {separator : TokenKind} (h : rule.Leaves looked eos n none)
    (limit : Nat) : (separatedBy separator rule limit).Leaves looked eos n seen := by
  induction limit generalizing seen with
  | zero => exact h.of_none.bind fun a => leaves_pure _
  | succ limit ih =>
      apply h.of_none.bind
      intro a
      apply leaves_accept?.bind
      intro o
      cases o with
      | none => exact leaves_pure _
      | some mark => exact ih.bind fun rest => leaves_pure _

end Rule

end SoliditySource
