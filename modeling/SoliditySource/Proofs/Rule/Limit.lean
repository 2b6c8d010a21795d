import SoliditySource.Proofs.Rule.Gathers

/-! # Limits that are never met

Following a rule leaves a reader no heavier than it was, and taking a token that is not the
end token leaves it lighter. So two rules that differ in the limits on their repetitions run
alike on every reader whose weight is below both limits.
-/

namespace SoliditySource

/-! ## Weight of a run -/

namespace FragmentReader

theorem weight_next_none {r s : FragmentReader} (h : next r = .ok none s) :
    s.weight ≤ r.weight := by
  unfold next at h
  split at h
  · cases h
  · exact weight_cut_none h

theorem weight_nextSolid_none {r s : FragmentReader} (h : nextSolid r = .ok none s) :
    s.weight ≤ r.weight := by
  fun_induction nextSolid r with
  | case1 r cause t hn => cases h
  | case2 r t hn => cases h; exact weight_next_none hn
  | case3 r f t hn hb ih => exact Nat.le_trans (ih h) (Nat.le_of_lt (weight_next hn))
  | case4 r f t hn hb => cases h

end FragmentReader

theorem Token.weight_read_le {t : Token} {r s : FragmentReader} (h : read r = .ok t s) :
    s.weight ≤ r.weight := by
  unfold read at h
  split at h
  · cases h
  · next hn => cases h; exact FragmentReader.weight_nextSolid_none hn
  · next hn =>
      exact Nat.le_trans (weight_ofFragment h) (Nat.le_of_lt (FragmentReader.weight_nextSolid hn))

namespace TokenReader

variable {r s : TokenReader} {t : Token}

theorem weight_next_le (h : next r = .ok t s) : s.weight ≤ r.weight := by
  unfold next at h
  split at h
  · next u hu => cases h; simp [weight, hu]
  · next hn =>
      split at h
      · next hr => cases h; simpa [weight, hn] using Token.weight_read_le hr
      · cases h

theorem weight_peek_le (h : peek r = .ok t s) : s.weight ≤ r.weight := by
  unfold peek at h
  split at h
  · cases h; exact Nat.le_refl _
  · next hn =>
      split at h
      · next u v hr =>
          cases h
          cases ht : t.isEos with
          | true => simpa [weight, hn, ht] using Token.weight_read_le hr
          | false =>
              have hlt := Token.weight_read hr ht
              simp only [weight, hn, ht, Option.any_some, Option.any_none, Bool.not_false, if_true]
              simp only [Bool.false_eq_true, if_false]
              omega
      · cases h

end TokenReader

namespace Rule

variable {α β : Type} {rule rule' : Rule α} {n m : Nat} {kind : TokenKind}
  {fits : TokenKind → Bool} {cause : Cause} {part : Missing}

theorem weight_run (rule : Rule α) {r : TokenReader} {a : α} (h : (rule.run r).result = .ok a) :
    (rule.run r).reader.weight ≤ r.weight := by
  induction rule generalizing r with
  | done value => exact Nat.le_refl _
  | refuse fault => cases h
  | look next ih =>
      cases hp : r.peek with
      | error e s => simp [run, hp] at h
      | ok t s =>
          simp only [run, hp] at h ⊢
          exact Nat.le_trans (ih t h) (TokenReader.weight_peek_le hp)
  | take next ih =>
      cases hn : r.next with
      | error e s => simp [run, hn] at h
      | ok t s =>
          simp only [run, hn] at h ⊢
          exact Nat.le_trans (ih t h) (TokenReader.weight_next_le hn)
  | note event next ih => exact ih h

/-- Whenever the rule comes to a value, it has taken a token other than the end token. -/
def Takes (rule : Rule α) : Prop :=
  ∀ r a, (rule.run r).result = .ok a → (rule.run r).reader.weight < r.weight

/-- The two parts of a run that comes to a value. -/
theorem run_bind_ok {f : α → Rule β} {r : TokenReader} {b : β}
    (h : ((rule >>= f).run r).result = .ok b) :
    ∃ a, (rule.run r).result = .ok a ∧ ((f a).run (rule.run r).reader).result = .ok b ∧
      ((rule >>= f).run r).reader = ((f a).run (rule.run r).reader).reader := by
  rw [run_bind] at h ⊢
  cases hr : (rule.run r).result with
  | error e => rw [hr] at h; cases h
  | ok a => rw [hr] at h; exact ⟨a, rfl, h, rfl⟩

theorem Takes.bind (h : rule.Takes) (f : α → Rule β) : (rule >>= f).Takes := by
  intro r b hb
  obtain ⟨a, ha, hf, hreader⟩ := run_bind_ok hb
  rw [hreader]
  exact Nat.lt_of_le_of_lt (weight_run (f a) hf) (h r a ha)

theorem Takes.behind (rule : Rule α) {f : α → Rule β} (h : ∀ a, (f a).Takes) :
    (rule >>= f).Takes := by
  intro r b hb
  obtain ⟨a, ha, hf, hreader⟩ := run_bind_ok hb
  rw [hreader]
  exact Nat.lt_of_lt_of_le (h a _ b hf) (weight_run rule ha)

theorem takes_takeIf (hfits : fits .eos = false) : (takeIf fits cause).Takes := by
  intro r t h
  change ((take fun t => if fits t.kind then done t else refuseAt t cause).run r).result = _ at h
  change ((take fun t => if fits t.kind then done t else refuseAt t cause).run r).reader.weight < _
  cases hn : r.next with
  | error e s => simp [run, hn] at h
  | ok u s =>
      simp only [run, hn] at h ⊢
      by_cases hu : fits u.kind = true
      · have heos : u.isEos = false := by
          rw [Token.isEos, decide_eq_false_iff_not]
          intro hk
          rw [hk, hfits] at hu
          cases hu
        rw [if_pos hu]
        exact TokenReader.weight_next hn heos
      · rw [if_neg hu] at h
        cases h

theorem takes_expect (hkind : kind ≠ .eos) : (expect kind part).Takes :=
  takes_takeIf (decide_eq_false hkind.symm)

/-! ## Rules that run alike -/

/-- On every reader of a weight below `n` both rules run the same. -/
def Alike (n : Nat) (rule rule' : Rule α) : Prop :=
  ∀ r : TokenReader, r.weight < n → rule.run r = rule'.run r

theorem Alike.refl (rule : Rule α) : Alike n rule rule := fun _ _ => rfl

theorem Alike.mono (h : Alike n rule rule') (hle : m ≤ n) : Alike m rule rule' :=
  fun r hr => h r (Nat.lt_of_lt_of_le hr hle)

theorem Alike.bind {f f' : α → Rule β} (h : Alike n rule rule') (hf : ∀ a, Alike n (f a) (f' a)) :
    Alike n (rule >>= f) (rule' >>= f') := by
  intro r hr
  rw [run_bind, run_bind, ← h r hr]
  cases ha : (rule.run r).result with
  | error e => rfl
  | ok a =>
      have hw := weight_run rule ha
      dsimp only
      rw [hf a _ (Nat.lt_of_le_of_lt hw hr)]

/-- Behind a rule that has taken a token the readers are lighter. -/
theorem Alike.bind_takes {f f' : α → Rule β} (h : Alike (n + 1) rule rule') (htakes : rule.Takes)
    (hf : ∀ a, Alike n (f a) (f' a)) : Alike (n + 1) (rule >>= f) (rule' >>= f') := by
  intro r hr
  rw [run_bind, run_bind, ← h r hr]
  cases ha : (rule.run r).result with
  | error e => rfl
  | ok a =>
      have hw := htakes r a ha
      dsimp only
      rw [hf a _ (Nat.lt_of_lt_of_le hw (Nat.le_of_lt_succ hr))]

theorem Alike.map (g : α → β) (h : Alike n rule rule') : Alike n (g <$> rule) (g <$> rule') := by
  rw [map_eq_pure_bind, map_eq_pure_bind]
  exact h.bind fun a => .refl _

theorem Alike.whenNext (kind : TokenKind) (h : Alike n rule rule') :
    Alike n (whenNext kind rule) (whenNext kind rule') := by
  apply (Alike.refl peek).bind
  intro t
  split
  · exact h.map some
  · exact .refl _

theorem Alike.next_bind {f f' : Token → Rule β} (heos : ∀ t, t.kind = .eos → f t = f' t)
    (h : ∀ t, t.kind ≠ .eos → Alike n (f t) (f' t)) :
    Alike (n + 1) (next >>= f) (next >>= f') := by
  intro r hr
  change (take f).run r = (take f').run r
  cases hn : r.next with
  | error e s => simp only [run, hn]
  | ok t s =>
      simp only [run, hn]
      by_cases ht : t.kind = .eos
      · rw [heos t ht]
      · have hw := TokenReader.weight_next hn (decide_eq_false ht)
        exact h t ht s (Nat.lt_of_lt_of_le hw (Nat.le_of_lt_succ hr))

theorem Alike.accept?_bind {f f' : Option Token → Rule β} (hkind : kind ≠ .eos)
    (hnone : Alike (n + 1) (f none) (f' none))
    (hsome : ∀ t, Alike n (f (some t)) (f' (some t))) :
    Alike (n + 1) (accept? kind >>= f) (accept? kind >>= f') := by
  have hlook : ∀ g : Option Token → Rule β, (accept? kind >>= g) =
      look fun t => if t.kind = kind then take fun u => g (some u) else g none := by
    intro g
    rw [accept?, bind_assoc]
    change look _ = _
    congr 1
    funext t
    change ((if t.kind = kind then some <$> next else pure none) >>= g) = _
    split <;> rfl
  intro r hr
  rw [hlook, hlook]
  cases hp : r.peek with
  | error e s => simp only [run, hp]
  | ok t s =>
      have hw := TokenReader.weight_peek_le hp
      simp only [run, hp]
      by_cases ht : t.kind = kind
      · rw [if_pos ht, if_pos ht]
        cases hn : s.next with
        | error e u => simp only [run, hn]
        | ok u v =>
            -- the token taken is the one that was looked at
            obtain rfl := (TokenReader.eq_of_held (TokenReader.next_of_peek hp).2).2 hn
            have hlt := TokenReader.weight_next hn (decide_eq_false (by rwa [ht]))
            simp only [run, hn]
            exact hsome t v (by omega)
      · rw [if_neg ht, if_neg ht]
        exact hnone s (by omega)

/-- Items with separators, read with limits that are not met. -/
theorem Alike.separatedBy {separator : TokenKind} (hkind : separator ≠ .eos) {l l' : Nat}
    (h : Alike n rule rule') (hl : n ≤ l) (hl' : n ≤ l') :
    Alike n (separatedBy separator rule l) (separatedBy separator rule' l') := by
  induction n generalizing l l' with
  | zero => exact fun r hr => absurd hr (Nat.not_lt_zero _)
  | succ n ih =>
      obtain ⟨l, rfl⟩ := Nat.exists_eq_add_of_lt hl
      obtain ⟨l', rfl⟩ := Nat.exists_eq_add_of_lt hl'
      apply h.bind
      intro a
      refine Alike.accept?_bind hkind (.refl _) fun t => ?_
      have hrest := ih (h.mono (Nat.le_succ n)) (Nat.le_add_right n l) (Nat.le_add_right n l')
      exact hrest.bind fun rest => .refl _

end Rule

end SoliditySource
