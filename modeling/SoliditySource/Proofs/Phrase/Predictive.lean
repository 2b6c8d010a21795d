import SoliditySource.Proofs.Phrase.Basic

/-! # Phrases that can be told from the next token

A phrase is predictive when the next token always settles how it goes on. What may come
next is computed from the phrase, so this is checked by going through the kinds. A
predictive phrase stands for one tree only, and in a run of tokens it ends at one place
only.
-/

namespace SoliditySource

namespace Phrase

variable {α β : Type}

/-- Holds when no tokens at all are a phrase. -/
def nullable : {α : Type} → Phrase α → Bool
  | _, empty _ => true
  | _, token _ => false
  | _, map _ p => p.nullable
  | _, seq p q => p.nullable && q.nullable
  | _, either p q => p.nullable || q.nullable
  | _, many _ => true

/-- The kinds that a phrase may start with. -/
def first : {α : Type} → Phrase α → TokenKind → Bool
  | _, empty _, _ => false
  | _, token fits, k => fits k
  | _, map _ p, k => p.first k
  | _, seq p q, k => p.first k || (p.nullable && q.first k)
  | _, either p q, k => p.first k || q.first k
  | _, many p, k => p.first k

/-- The kinds that a whole phrase may go on with. -/
def more : {α : Type} → Phrase α → TokenKind → Bool
  | _, empty _, _ => false
  | _, token _, _ => false
  | _, map _ p, k => p.more k
  | _, seq p q, k => q.more k || (q.nullable && p.more k)
  | _, either p q, k =>
      p.more k || q.more k || (p.nullable && q.first k) || (q.nullable && p.first k)
  | _, many p, k => p.first k || p.more k

/-- The next token always tells how a phrase goes on: it never fits two parts at once. -/
def Predictive : {α : Type} → Phrase α → Prop
  | _, empty _ => True
  | _, token fits => fits .eos = false ∧ ∃ k, fits k = true
  | _, map _ p => p.Predictive
  | _, seq p q => p.Predictive ∧ q.Predictive ∧ ∀ k, (p.more k && q.first k) = false
  | _, either p q =>
      p.Predictive ∧ q.Predictive ∧ (p.nullable && q.nullable) = false ∧
        ∀ k, (p.first k && q.first k) = false
  | _, many p => p.Predictive ∧ p.nullable = false ∧ ∀ k, (p.more k && p.first k) = false

section
variable (f : α → β) (p : Phrase α) (q : Phrase (α → β)) (k : TokenKind)

@[simp] theorem nullable_map : (f <$> p).nullable = p.nullable := rfl
@[simp] theorem first_map : (f <$> p).first k = p.first k := rfl
@[simp] theorem more_map : (f <$> p).more k = p.more k := rfl

@[simp] theorem nullable_seq : (q <*> p).nullable = (q.nullable && p.nullable) := rfl

@[simp] theorem first_seq :
    (q <*> p).first k = (q.first k || (q.nullable && p.first k)) := rfl

@[simp] theorem more_seq :
    (q <*> p).more k = (p.more k || (p.nullable && q.more k)) := rfl

/-- What starts a sequence starts its first part, unless that may be empty. -/
theorem first_seq_of (h : q.nullable = false) : (q <*> p).first k = q.first k := by
  rw [first_seq, h, Bool.false_and, Bool.or_false]

@[simp] theorem nullable_either (p q : Phrase α) :
    (either p q).nullable = (p.nullable || q.nullable) := rfl

@[simp] theorem first_either (p q : Phrase α) :
    (either p q).first k = (p.first k || q.first k) := rfl

@[simp] theorem first_empty (a : α) : (empty a).first k = false := rfl

@[simp] theorem nullable_many : (many p).nullable = true := rfl
@[simp] theorem first_many : (many p).first k = p.first k := rfl
@[simp] theorem more_many : (many p).more k = (p.first k || p.more k) := rfl

@[simp] theorem nullable_token (fits : TokenKind → Bool) : (token fits).nullable = false := rfl
@[simp] theorem first_token (fits : TokenKind → Bool) : (token fits).first k = fits k := rfl
@[simp] theorem more_token (fits : TokenKind → Bool) : (token fits).more k = false := rfl

end

theorem nullable_iff (p : Phrase α) : p.nullable = true ↔ ∃ a, p.Spells [] a := by
  induction p with
  | empty value => exact ⟨fun _ => ⟨value, rfl, rfl⟩, fun _ => rfl⟩
  | token fits =>
      constructor
      · intro h; cases h
      · rintro ⟨t, h, -⟩; cases h
  | map f p ih =>
      rw [nullable, ih]
      exact ⟨fun ⟨a, ha⟩ => ⟨f a, a, ha, rfl⟩, fun ⟨_, a, ha, _⟩ => ⟨a, ha⟩⟩
  | seq p q ihp ihq =>
      rw [nullable, Bool.and_eq_true, ihp, ihq]
      constructor
      · rintro ⟨⟨f, hf⟩, a, ha⟩
        exact ⟨f a, [], [], f, a, rfl, hf, ha, rfl⟩
      · rintro ⟨_, us, vs, f, a, he, hf, ha, -⟩
        obtain ⟨rfl, rfl⟩ := List.append_eq_nil_iff.mp he.symm
        exact ⟨⟨f, hf⟩, a, ha⟩
  | either p q ihp ihq =>
      rw [nullable, Bool.or_eq_true, ihp, ihq]
      constructor
      · rintro (⟨a, ha⟩ | ⟨a, ha⟩)
        · exact ⟨a, .inl ha⟩
        · exact ⟨a, .inr ha⟩
      · rintro ⟨a, ha | ha⟩
        · exact .inl ⟨a, ha⟩
        · exact .inr ⟨a, ha⟩
  | many p ih => exact ⟨fun _ => ⟨[], .nil⟩, fun _ => rfl⟩

theorem not_spells_nil {p : Phrase α} (h : p.nullable = false) (a : α) : ¬ p.Spells [] a := by
  intro ha
  have hn := (nullable_iff p).mpr ⟨a, ha⟩
  rw [h] at hn
  cases hn

/-- Every construct has a phrase. -/
theorem Predictive.exists_spells {p : Phrase α} (h : p.Predictive) : ∃ ts a, p.Spells ts a := by
  induction p with
  | empty value => exact ⟨[], value, rfl, rfl⟩
  | token fits =>
      obtain ⟨-, k, hk⟩ := h
      exact ⟨[⟨k, [], .start⟩], _, rfl, hk⟩
  | map f p ih =>
      obtain ⟨ts, a, ha⟩ := ih h
      exact ⟨ts, f a, a, ha, rfl⟩
  | seq p q ihp ihq =>
      obtain ⟨us, f, hf⟩ := ihp h.1
      obtain ⟨vs, a, ha⟩ := ihq h.2.1
      exact ⟨us ++ vs, f a, us, vs, f, a, rfl, hf, ha, rfl⟩
  | either p q ihp ihq =>
      obtain ⟨ts, a, ha⟩ := ihp h.1
      exact ⟨ts, a, .inl ha⟩
  | many p ih => exact ⟨[], [], .nil⟩

theorem Predictive.viable_nil {p : Phrase α} (h : p.Predictive) : p.Viable [] := by
  obtain ⟨ts, a, ha⟩ := h.exists_spells
  exact ⟨ts, a, ha⟩

theorem Repeated.of_cons {spells : List Token → α → Prop} {t : Token} {ts : List Token}
    {as : List α} (h : Repeated spells (t :: ts) as) (hne : ∀ a, ¬ spells [] a) :
    ∃ us vs a as', ts = us ++ vs ∧ spells (t :: us) a ∧ Repeated spells vs as' ∧
      as = a :: as' := by
  generalize hw : t :: ts = w at h
  cases h with
  | nil => cases hw
  | @cons us vs a as' h hs =>
      cases us with
      | nil => exact absurd h (hne a)
      | cons u us =>
          rw [List.cons_append, List.cons.injEq] at hw
          obtain ⟨rfl, rfl⟩ := hw
          exact ⟨us, vs, a, as', rfl, h, hs, rfl⟩

/-- A token is the beginning of a phrase when its kind is one to start with. -/
theorem Predictive.first_iff {p : Phrase α} (h : p.Predictive) (t : Token) :
    p.first t.kind = true ↔ p.Viable [t] := by
  induction p with
  | empty value =>
      constructor
      · intro hf; cases hf
      · rintro ⟨more, a, hw, -⟩; cases hw
  | token fits =>
      constructor
      · intro hf; exact ⟨[], t, rfl, hf⟩
      · rintro ⟨more, a, hw, hf⟩
        obtain ⟨rfl, -⟩ := List.cons.inj hw
        exact hf
  | map f p ih =>
      rw [first, ih h]
      exact ⟨fun ⟨more, a, ha⟩ => ⟨more, f a, a, ha, rfl⟩, fun ⟨more, _, a, ha, _⟩ => ⟨more, a, ha⟩⟩
  | seq p q ihp ihq =>
      rw [first, Bool.or_eq_true, Bool.and_eq_true, ihp h.1, ihq h.2.1, nullable_iff]
      constructor
      · rintro (⟨more, f, hf⟩ | ⟨⟨f, hf⟩, more, a, ha⟩)
        · obtain ⟨vs, a, ha⟩ := h.2.1.exists_spells
          exact ⟨more ++ vs, f a, _, vs, f, a, by rw [List.append_assoc], hf, ha, rfl⟩
        · exact ⟨more, f a, [], _, f, a, rfl, hf, ha, rfl⟩
      · rintro ⟨more, _, us, vs, f, a, he, hf, ha, -⟩
        cases us with
        | nil => exact .inr ⟨⟨f, hf⟩, more, a, by rw [he]; exact ha⟩
        | cons u us =>
            rw [List.singleton_append, List.cons_append, List.cons.injEq] at he
            obtain ⟨rfl, rfl⟩ := he
            exact .inl ⟨us, f, hf⟩
  | either p q ihp ihq =>
      rw [first, Bool.or_eq_true, ihp h.1, ihq h.2.1]
      constructor
      · rintro (⟨more, a, ha⟩ | ⟨more, a, ha⟩)
        · exact ⟨more, a, .inl ha⟩
        · exact ⟨more, a, .inr ha⟩
      · rintro ⟨more, a, ha | ha⟩
        · exact .inl ⟨more, a, ha⟩
        · exact .inr ⟨more, a, ha⟩
  | many p ih =>
      have hne := fun a => not_spells_nil h.2.1 a
      rw [first, ih h.1]
      constructor
      · rintro ⟨more, a, ha⟩
        refine ⟨more, [a], ?_⟩
        have hx := Repeated.cons ha Repeated.nil
        rwa [List.append_nil] at hx
      · rintro ⟨more, as, has⟩
        obtain ⟨us, vs, a, as', -, ha, -, -⟩ := Repeated.of_cons has hne
        exact ⟨us, a, ha⟩

/-! ## Where a phrase ends -/

/-- The parts of a sequence are never mixed up: a token that the first part goes on with
starts no second part. -/
def Apart (p : Phrase α) (q : Phrase β) : Prop :=
  ∀ us a t, p.Spells us a → p.Viable (us ++ [t]) → ¬ q.Viable [t]

theorem Viable.head {p : Phrase α} {t : Token} {ts : List Token} (h : p.Viable (t :: ts)) :
    p.Viable [t] := by
  have h : p.Viable ([t] ++ ts) := h
  exact h.front

theorem Spells.viable_append {p : Phrase α} {us more : List Token} {t : Token} {a : α}
    (h : p.Spells (us ++ t :: more) a) : p.Viable (us ++ [t]) :=
  ⟨more, a, by rwa [List.append_assoc, List.singleton_append]⟩

/-- Two ways to take a sequence apart differ only if the first part of one goes on into
the second part of the other. -/
theorem append_eq_append {us vs us' vs' : List Token} (h : us ++ vs = us' ++ vs') :
    (us = us' ∧ vs = vs') ∨ (∃ t more, us' = us ++ t :: more ∧ vs = t :: (more ++ vs')) ∨
      ∃ t more, us = us' ++ t :: more ∧ vs' = t :: (more ++ vs) := by
  rcases List.append_eq_append_iff.mp h with ⟨c, h1, h2⟩ | ⟨c, h1, h2⟩
  · cases c with
    | nil => exact .inl ⟨by rw [h1, List.append_nil], h2⟩
    | cons t more => exact .inr (.inl ⟨t, more, h1, h2⟩)
  · cases c with
    | nil => exact .inl ⟨by rw [h1, List.append_nil], h2.symm⟩
    | cons t more => exact .inr (.inr ⟨t, more, h1, h2⟩)

theorem Apart.split {p : Phrase α} {q : Phrase β} (h : Apart p q) {us vs us' vs' : List Token}
    {a a' : α} (hu : p.Spells us a) (hu' : p.Spells us' a') (hv : q.Viable vs)
    (hv' : q.Viable vs') (he : us ++ vs = us' ++ vs') : us = us' ∧ vs = vs' := by
  rcases append_eq_append he with hsame | ⟨t, more, rfl, rfl⟩ | ⟨t, more, rfl, rfl⟩
  · exact hsame
  · exact absurd hv.head (h us a t hu hu'.viable_append)
  · exact absurd hv'.head (h us' a' t hu' hu.viable_append)

/-- Once a first part has ended, what follows belongs to the second part. -/
theorem Apart.rest {p : Phrase α} {q : Phrase β} (h : Apart p q) {us ws us' vs' more : List Token}
    {a a' : α} (hu : p.Spells us a)
    (hend : ∀ t, ws.head? = some t → ¬ p.Viable (us ++ [t])) (hw : ws = [] → more = [])
    (hu' : p.Spells us' a') (hv' : q.Viable vs') (he : us ++ (ws ++ more) = us' ++ vs') :
    us = us' ∧ ws ++ more = vs' := by
  rcases append_eq_append he with hsame | ⟨t, rest, rfl, hws⟩ | ⟨t, rest, rfl, rfl⟩
  · exact hsame
  · cases ws with
    | nil =>
        rw [hw rfl] at hws
        cases hws
    | cons w ws =>
        rw [List.cons_append, List.cons.injEq] at hws
        exact absurd hu'.viable_append (hend t (by rw [hws.1]; rfl))
  · exact absurd hv'.head (h us' a' t hu' hu.viable_append)

/-- The first part has ended when its phrase is over and the next token, which is the first
one of `vs` or else `t`, is not its own. -/
theorem Apart.ended {p : Phrase α} {q : Phrase β} (h : Apart p q) {us vs : List Token} {t : Token}
    {a : α} (hu : p.Spells us a) (hv : q.Viable vs) (ht : vs = [] → ¬ p.Viable (us ++ [t])) :
    ∀ x, (vs ++ [t]).head? = some x → ¬ p.Viable (us ++ [x]) := by
  intro x hx
  cases vs with
  | nil =>
      cases hx
      exact ht rfl
  | cons v vs =>
      cases hx
      exact fun hp => h us a _ hu hp hv.head

/-- A phrase that goes on as a phrase of another sort has not begun yet. -/
theorem Predictive.first_of_disjoint {p q : Phrase α} (hp : p.Predictive) (hq : q.Predictive)
    (hdis : ∀ k, (p.first k && q.first k) = false) {us : List Token} {t : Token} {a : α}
    (ha : p.Spells us a) (hv : q.Viable (us ++ [t])) :
    p.nullable = true ∧ q.first t.kind = true := by
  cases us with
  | nil => exact ⟨(nullable_iff p).mpr ⟨a, ha⟩, (hq.first_iff t).mpr hv⟩
  | cons u us =>
      have hk := hdis u.kind
      rw [(hp.first_iff u).mpr ha.viable.head, (hq.first_iff u).mpr hv.head] at hk
      cases hk

/-- The tokens that a whole phrase goes on with are among those computed for it. -/
def GoesOn (p : Phrase α) : Prop :=
  ∀ {us : List Token} {t : Token} {a : α}, p.Spells us a → p.Viable (us ++ [t]) →
    p.more t.kind = true

theorem GoesOn.apart {p : Phrase α} {q : Phrase β} (hp : p.GoesOn) (hq : q.Predictive)
    (h : ∀ k, (p.more k && q.first k) = false) : Apart p q := by
  intro us a t hu hmore hfirst
  have ht := h t.kind
  rw [hp hu hmore, (hq.first_iff t).mpr hfirst] at ht
  cases ht

theorem goesOn_seq {p : Phrase (α → β)} {q : Phrase α} (h : (p.seq q).Predictive)
    (hp : p.GoesOn) (hq : q.GoesOn) : (p.seq q).GoesOn := by
  rintro _ t _ ⟨us, vs, f, b, rfl, hf, hb, -⟩ hv
  have hap := hp.apart h.2.1 h.2.2
  rw [more, Bool.or_eq_true, Bool.and_eq_true]
  by_cases hx : vs = [] ∧ p.Viable (us ++ [t])
  · obtain ⟨rfl, hviable⟩ := hx
    exact .inr ⟨(nullable_iff q).mpr ⟨b, hb⟩, hp hf hviable⟩
  · obtain ⟨more', _, us', vs', f', b', he, hf', hb', -⟩ := hv
    rw [List.append_assoc us, List.append_assoc us] at he
    have hend := hap.ended hf hb.viable fun hnil hviable => hx ⟨hnil, hviable⟩
    obtain ⟨-, rfl⟩ := hap.rest hf hend (fun hnil => by simp at hnil) hf' hb'.viable he
    exact .inl (hq hb ⟨more', b', hb'⟩)

theorem goesOn_either {p q : Phrase α} (h : (either p q).Predictive) (hp : p.GoesOn)
    (hq : q.GoesOn) : (either p q).GoesOn := by
  rintro us t a ha ⟨more', b, hb⟩
  rw [more]
  simp only [Bool.or_eq_true, Bool.and_eq_true]
  rcases ha with ha | ha
  · rcases hb with hb | hb
    · exact .inl (.inl (.inl (hp ha ⟨more', b, hb⟩)))
    · exact .inl (.inr (h.1.first_of_disjoint h.2.1 h.2.2.2 ha ⟨more', b, hb⟩))
  · rcases hb with hb | hb
    · have hdis : ∀ k, (q.first k && p.first k) = false := fun k => by
        rw [Bool.and_comm]
        exact h.2.2.2 k
      exact .inr (h.2.1.first_of_disjoint h.1 hdis ha ⟨more', b, hb⟩)
    · exact .inl (.inl (.inr (hq ha ⟨more', b, hb⟩)))

theorem goesOn_many {p : Phrase α} (h : (many p).Predictive) (hp : p.GoesOn) :
    (many p).GoesOn := by
  intro us t as has hv
  have hap : Apart p (many p) := hp.apart (q := many p) h h.2.2
  change Repeated p.Spells us as at has
  rw [more, Bool.or_eq_true]
  induction has with
  | nil => exact .inl ((Predictive.first_iff (p := many p) h t).mpr hv)
  | @cons us vs b bs hb hbs ihs =>
      by_cases hx : vs = [] ∧ p.Viable (us ++ [t])
      · obtain ⟨rfl, hviable⟩ := hx
        exact .inr (hp hb hviable)
      · obtain ⟨more', cs, hcs⟩ := hv
        have hend := hap.ended hb (Spells.viable (p := many p) hbs)
          fun hnil hviable => hx ⟨hnil, hviable⟩
        rw [List.append_assoc us, List.append_assoc us] at hcs
        generalize hw : us ++ (vs ++ [t] ++ more') = w at hcs
        change Repeated p.Spells w cs at hcs
        cases hcs with
        | nil => simp at hw
        | @cons us' vs' c cs hc hcs =>
            obtain ⟨-, rfl⟩ := hap.rest hb hend (fun hnil => by simp at hnil) hc
              (Spells.viable (p := many p) hcs) hw
            exact ihs ⟨more', cs, hcs⟩

theorem Predictive.goesOn {p : Phrase α} (h : p.Predictive) : p.GoesOn := by
  induction p with
  | empty value =>
      rintro us t a ha ⟨more, _, hw, -⟩
      simp at hw
  | token fits =>
      rintro us t a ha ⟨more, _, hw, -⟩
      rw [ha.1] at hw
      simp at hw
  | map f p ih =>
      rintro us t _ ⟨b, hb, -⟩ ⟨more, _, c, hc, -⟩
      exact ih h hb ⟨more, c, hc⟩
  | seq p q ihp ihq => exact goesOn_seq h (ihp h.1) (ihq h.2.1)
  | either p q ihp ihq => exact goesOn_either h (ihp h.1) (ihq h.2.1)
  | many p ih => exact goesOn_many h (ih h.1)

theorem Predictive.apart {p : Phrase α} {q : Phrase β} (hp : p.Predictive) (hq : q.Predictive)
    (h : ∀ k, (p.more k && q.first k) = false) : Apart p q := GoesOn.apart hp.goesOn hq h

/-- The tree of a phrase is settled by its tokens. -/
theorem Predictive.unique {p : Phrase α} (h : p.Predictive) {ts : List Token} {a b : α}
    (ha : p.Spells ts a) (hb : p.Spells ts b) : a = b := by
  induction p generalizing ts with
  | empty value => rw [ha.2, hb.2]
  | token fits => exact (List.cons.inj (ha.1.symm.trans hb.1)).1
  | map f p ih =>
      obtain ⟨a', ha', rfl⟩ := ha
      obtain ⟨b', hb', rfl⟩ := hb
      rw [ih h ha' hb']
  | seq p q ihp ihq =>
      obtain ⟨us, vs, f, a', rfl, hf, ha', rfl⟩ := ha
      obtain ⟨us', vs', g, b', he, hg, hb', rfl⟩ := hb
      have hap := h.1.apart h.2.1 h.2.2
      obtain ⟨rfl, rfl⟩ := hap.split hf hg ha'.viable hb'.viable he
      rw [ihp h.1 hf hg, ihq h.2.1 ha' hb']
  | either p q ihp ihq =>
      have hcross : ∀ {c d : _}, p.Spells ts c → ¬ q.Spells ts d := by
        intro c d hc hd
        cases ts with
        | nil =>
            have hn := h.2.2.1
            rw [(nullable_iff p).mpr ⟨c, hc⟩, (nullable_iff q).mpr ⟨d, hd⟩] at hn
            cases hn
        | cons t ts =>
            have hk := h.2.2.2 t.kind
            rw [(h.1.first_iff t).mpr hc.viable.head,
              (h.2.1.first_iff t).mpr hd.viable.head] at hk
            cases hk
      rcases ha with ha | ha
      · rcases hb with hb | hb
        · exact ihp h.1 ha hb
        · exact absurd hb (hcross ha)
      · rcases hb with hb | hb
        · exact absurd ha (hcross hb)
        · exact ihq h.2.1 ha hb
  | many p ih =>
      have hne := fun a => not_spells_nil h.2.1 a
      have hap : Apart p (many p) := h.1.apart (q := many p) h h.2.2
      change Repeated p.Spells ts a at ha
      induction ha generalizing b with
      | nil =>
          generalize hw : ([] : List Token) = w at hb
          change Repeated p.Spells w b at hb
          cases hb with
          | nil => rfl
          | cons hc _ =>
              obtain ⟨rfl, -⟩ := List.append_eq_nil_iff.mp hw.symm
              exact absurd hc (hne _)
      | @cons us vs c cs hc hcs ihs =>
          generalize hw : us ++ vs = w at hb
          change Repeated p.Spells w b at hb
          cases hb with
          | nil =>
              obtain ⟨rfl, -⟩ := List.append_eq_nil_iff.mp hw
              exact absurd hc (hne _)
          | @cons us' vs' d ds hd hds =>
              obtain ⟨rfl, rfl⟩ := hap.split hc hd (Spells.viable (p := many p) hcs)
                (Spells.viable (p := many p) hds) hw
              rw [ih h.1 hc hd, ihs hds]

end Phrase

end SoliditySource
