import SoliditySource.Proofs.Phrase.Predictive
import SoliditySource.Proofs.Rule.Follow

/-! # Rules that recognize phrases

A verdict is sound for a phrase when a value comes from the whole phrase that is ahead,
and a refusal stands at the first token that takes the tokens before it out of every
phrase. A rule recognizes a phrase when all its verdicts are sound. The lemmas here go
along the combinators of rules.
-/

namespace SoliditySource

namespace Verdict

variable {α β : Type}

/-- What has been used is a whole phrase that does not go on, or breaks off at a token that
no phrase goes on with, or is the beginning of a phrase with nothing known behind it. Where
`stop` holds of the tokens from the break on, the tokens before it are no whole phrase. -/
def SoundUpTo (stop : List Token → Prop) (end? : Option Token) (p : Phrase α)
    (ts : List Token) : Verdict α → Prop
  | value a rest =>
      ∃ used, ts = used ++ rest ∧ p.Spells used a ∧
        ∀ t, rest.head?.or end? = some t → ¬ p.Viable (used ++ [t])
  | refusal fault _ =>
      ∃ used back t, ts = used ++ back ∧ back.head?.or end? = some t ∧
        fault.position = t.position ∧ p.Viable used ∧ ¬ p.Viable (used ++ [t]) ∧
        (stop back → ∀ a, ¬ p.Spells used a)
  | starved => end? = none ∧ p.Viable ts

/-- A verdict that never breaks off after a whole phrase. -/
abbrev Sound (end? : Option Token) (p : Phrase α) (ts : List Token) (v : Verdict α) : Prop :=
  v.SoundUpTo (fun _ => True) end? p ts

end Verdict

/-- The token behind all others, if there is one, is an end token. -/
def IsEnd (end? : Option Token) : Prop := ∀ t, end? = some t → t.kind = .eos

namespace Phrase

variable {α β : Type}

/-- The same tokens are phrases for the same trees. -/
def Equivalent (p q : Phrase α) : Prop := ∀ ts a, p.Spells ts a ↔ q.Spells ts a

theorem Equivalent.viable {p q : Phrase α} (h : Equivalent p q) (ts : List Token) :
    p.Viable ts ↔ q.Viable ts :=
  ⟨fun ⟨more, a, ha⟩ => ⟨more, a, (h _ a).mp ha⟩, fun ⟨more, a, ha⟩ => ⟨more, a, (h _ a).mpr ha⟩⟩

theorem either_comm (p q : Phrase α) : Equivalent (either p q) (either q p) :=
  fun _ _ => or_comm

/-- A phrase or nothing. -/
def optional (p : Phrase α) : Phrase (Option α) := either (some <$> p) (empty none)

/-- A token of the given kind, of which the position is kept. -/
def mark (kind : TokenKind) : Phrase Position := Token.position <$> token (· = kind)

@[simp] theorem nullable_mark (kind : TokenKind) : (mark kind).nullable = false := rfl

@[simp] theorem first_mark (kind k : TokenKind) : (mark kind).first k = decide (k = kind) := rfl

@[simp] theorem more_mark (kind k : TokenKind) : (mark kind).more k = false := rfl

@[simp] theorem nullable_optional (p : Phrase α) : (optional p).nullable = true :=
  Bool.or_true _

@[simp] theorem first_optional (p : Phrase α) (k : TokenKind) :
    (optional p).first k = p.first k := Bool.or_false _

@[simp] theorem more_optional (p : Phrase α) (k : TokenKind) :
    (optional p).more k = (p.more k || p.first k) := by
  show (p.more k || false || (p.nullable && false) || (true && p.first k)) = _
  simp

end Phrase

open Phrase

variable {α β : Type} {stop : List Token → Prop} {end? : Option Token} {ts : List Token}
  {t : Token}

/-! ## Verdicts -/

namespace Verdict

theorem SoundUpTo.congr {p q : Phrase α} (h : Equivalent p q) {v : Verdict α}
    (hv : v.SoundUpTo stop end? p ts) : v.SoundUpTo stop end? q ts := by
  cases v with
  | value a rest =>
      obtain ⟨used, he, ha, hend⟩ := hv
      exact ⟨used, he, (h used a).mp ha, fun t ht hq => hend t ht ((h.viable _).mpr hq)⟩
  | refusal fault rest =>
      obtain ⟨used, back, t, he, ht, hpos, hv, hn, hs⟩ := hv
      exact ⟨used, back, t, he, ht, hpos, (h.viable _).mp hv, fun hq => hn ((h.viable _).mpr hq),
        fun hstop a ha => hs hstop a ((h used a).mpr ha)⟩
  | starved => exact ⟨hv.1, (h.viable _).mp hv.2⟩

theorem viable_map (f : α → β) (p : Phrase α) (us : List Token) :
    (f <$> p).Viable us ↔ p.Viable us :=
  ⟨fun ⟨more, _, a, ha, _⟩ => ⟨more, a, ha⟩, fun ⟨more, a, ha⟩ => ⟨more, f a, a, ha, rfl⟩⟩

theorem SoundUpTo.map {p : Phrase α} (f : α → β) {v : Verdict α}
    (hv : v.SoundUpTo stop end? p ts) :
    (v.bind fun a rest => value (f a) rest).SoundUpTo stop end? (f <$> p) ts := by
  cases v with
  | value a rest =>
      obtain ⟨used, he, ha, hend⟩ := hv
      exact ⟨used, he, ⟨a, ha, rfl⟩, fun t ht hq => hend t ht ((viable_map f p _).mp hq)⟩
  | refusal fault rest =>
      obtain ⟨used, back, t, he, ht, hpos, hv, hn, hs⟩ := hv
      refine ⟨used, back, t, he, ht, hpos, (viable_map f p _).mpr hv,
        fun hq => hn ((viable_map f p _).mp hq), ?_⟩
      rintro hstop _ ⟨a, ha, -⟩
      exact hs hstop a ha
  | starved => exact ⟨hv.1, (viable_map f p _).mpr hv.2⟩

/-! ## Two parts in a row -/

section

variable {γ : Type} {p : Phrase γ} {q : Phrase α} {g : γ → α → β}

/-- What goes on after the first part is a matter of the second part. -/
theorem viable_of_ended (hap : Apart p q) {us ws rest : List Token} {a : γ}
    (ha : p.Spells us a) (hend : ∀ t, rest.head?.or end? = some t → ¬ p.Viable (us ++ [t]))
    (hne : ws ≠ []) (hhead : ∀ t, ws.head? = some t → rest.head?.or end? = some t)
    (h : (g <$> p <*> q).Viable (us ++ ws)) : q.Viable ws := by
  obtain ⟨more, _, us', vs', _, b, he, ⟨a', ha', -⟩, hb, -⟩ := h
  rw [List.append_assoc] at he
  obtain ⟨-, rfl⟩ := hap.rest ha (fun t ht => hend t (hhead t ht))
    (fun hnil => absurd hnil hne) ha' hb.viable he
  exact ⟨more, b, hb⟩

theorem head_of_append {vs back : List Token} {t : Token} (ht : back.head?.or end? = some t) :
    ∀ x, (vs ++ [t]).head? = some x → (vs ++ back).head?.or end? = some x := by
  intro x hx
  cases vs with
  | nil => cases hx; exact ht
  | cons y vs => cases hx; rfl

/-- The second part starts where the first part has ended. -/
theorem SoundUpTo.behind (hap : Apart p q) {us rest : List Token} {a : γ} (ha : p.Spells us a)
    (hend : ∀ t, rest.head?.or end? = some t → ¬ p.Viable (us ++ [t])) {v : Verdict β}
    (hv : v.SoundUpTo stop end? (g a <$> q) rest) :
    v.SoundUpTo stop end? (g <$> p <*> q) (us ++ rest) := by
  have hgoes : ∀ {vs back : List Token} {t : Token}, rest = vs ++ back →
      back.head?.or end? = some t → (g <$> p <*> q).Viable (us ++ vs ++ [t]) →
      (g a <$> q).Viable (vs ++ [t]) := by
    rintro vs back t rfl ht hviable
    rw [List.append_assoc] at hviable
    exact (viable_map _ q _).mpr
      (viable_of_ended hap ha hend (by simp) (head_of_append ht) hviable)
  cases v with
  | value b rest' =>
      obtain ⟨vs, he, ⟨c, hc, rfl⟩, hend'⟩ := hv
      refine ⟨us ++ vs, by rw [he, List.append_assoc],
        ⟨us, vs, g a, c, rfl, ⟨a, ha, rfl⟩, hc, rfl⟩, ?_⟩
      exact fun t ht hviable => hend' t ht (hgoes he ht hviable)
  | refusal fault rest' =>
      obtain ⟨vs, back, t, he, ht, hpos, ⟨more, _, c, hc, -⟩, hn, hs⟩ := hv
      refine ⟨us ++ vs, back, t, by rw [he, List.append_assoc], ht, hpos, ?_,
        fun hviable => hn (hgoes he ht hviable), ?_⟩
      · exact ⟨more, g a c, us, vs ++ more, g a, c, List.append_assoc _ _ _, ⟨a, ha, rfl⟩, hc, rfl⟩
      · rintro hstop _ ⟨us', vs', _, b', he', ⟨a', ha', -⟩, hb', -⟩
        have hhead : ∀ x, vs.head? = some x → ¬ p.Viable (us ++ [x]) := by
          intro x hx
          refine hend x ?_
          rw [he, List.head?_append, hx]
          rfl
        rw [← List.append_nil vs] at he'
        obtain ⟨-, hvs⟩ := hap.rest ha hhead (fun _ => rfl) ha' hb'.viable he'
        rw [List.append_nil] at hvs
        exact hs hstop (g a b') ⟨b', by rw [hvs]; exact hb', rfl⟩
  | starved =>
      obtain ⟨hnone, more, _, c, hc, -⟩ := hv
      exact ⟨hnone, more, g a c, us, rest ++ more, g a, c, List.append_assoc _ _ _,
        ⟨a, ha, rfl⟩, hc, rfl⟩

/-- A first part does not end inside the beginning of another one that is not whole: it would
go on with a token that starts no second part. -/
theorem goes_beyond (hap : Apart p q) {us ws us' vs' : List Token} {a' : γ} {b' : α}
    (hviable : p.Viable us) (hnone : ∀ a, ¬ p.Spells us a) (he : us ++ ws = us' ++ vs')
    (ha' : p.Spells us' a') (hb' : q.Spells vs' b') : ∃ x more, us' = us ++ x :: more := by
  rcases append_eq_append he with ⟨rfl, -⟩ | ⟨x, more, rfl, -⟩ | ⟨x, more, rfl, rfl⟩
  · exact absurd ha' (hnone a')
  · exact ⟨x, more, rfl⟩
  · have hx : p.Viable (us' ++ [x] ++ more) := by
      rwa [List.append_assoc, List.singleton_append]
    exact absurd hb'.viable.head (hap us' a' x ha' hx.front)

/-- Where the first part breaks off, both parts in a row break off. -/
theorem SoundUpTo.broken (hap : Apart p q) (hq : q.Predictive) {fault : Fault}
    {rest : List Token} (hv : (refusal fault rest : Verdict γ).Sound end? p ts) :
    (refusal fault rest : Verdict β).SoundUpTo stop end? (g <$> p <*> q) ts := by
  obtain ⟨us, back, t, he, ht, hpos, ⟨more, a, ha⟩, hn, hs⟩ := hv
  obtain ⟨vs₀, b₀, hb₀⟩ := hq.exists_spells
  refine ⟨us, back, t, he, ht, hpos, ?_, ?_, ?_⟩
  · exact ⟨more ++ vs₀, g a b₀, us ++ more, vs₀, g a, b₀, (List.append_assoc _ _ _).symm,
      ⟨a, ha, rfl⟩, hb₀, rfl⟩
  · rintro ⟨more', _, us', vs', _, b', he', ⟨a', ha', -⟩, hb', -⟩
    rw [List.append_assoc] at he'
    obtain ⟨x, more'', rfl⟩ := goes_beyond hap ⟨more, a, ha⟩ (hs trivial) he' ha' hb'
    rw [List.append_assoc, List.append_cancel_left_eq, List.singleton_append,
      List.cons_append, List.cons.injEq] at he'
    rw [← he'.1] at ha'
    exact hn ha'.viable_append
  · rintro - _ ⟨us', vs', _, b', he', ⟨a', ha', -⟩, hb', -⟩
    rw [← List.append_nil us] at he'
    obtain ⟨x, more'', rfl⟩ := goes_beyond hap ⟨more, a, ha⟩ (hs trivial) he' ha' hb'
    simp at he'

theorem SoundUpTo.bind (h : (Phrase.seq (g <$> p) q).Predictive) {v : Verdict γ}
    (hv : v.Sound end? p ts) {w : γ → List Token → Verdict β}
    (hw : ∀ a rest, v = value a rest → (w a rest).SoundUpTo stop end? (g a <$> q) rest) :
    (v.bind w).SoundUpTo stop end? (g <$> p <*> q) ts := by
  have hap : Apart p q := Predictive.apart (p := p) h.1 h.2.1 h.2.2
  cases v with
  | value a rest =>
      obtain ⟨us, rfl, ha, hend⟩ := hv
      exact (hw a rest rfl).behind hap ha hend
  | refusal fault rest => exact SoundUpTo.broken hap h.2.1 hv
  | starved =>
      obtain ⟨vs₀, b₀, hb₀⟩ := h.2.1.exists_spells
      obtain ⟨hnone, more, a, ha⟩ := hv
      exact ⟨hnone, more ++ vs₀, g a b₀, ts ++ more, vs₀, g a, b₀, (List.append_assoc _ _ _).symm,
        ⟨a, ha, rfl⟩, hb₀, rfl⟩

end

/-- A value leaves fewer tokens than there were, unless its phrase is empty. -/
theorem SoundUpTo.length_lt {p : Phrase α} {a : α} {rest : List Token}
    (h : (value a rest).SoundUpTo stop end? p ts) (hn : p.nullable = false) :
    rest.length < ts.length := by
  obtain ⟨used, rfl, ha, -⟩ := h
  cases used with
  | nil => exact absurd ha (not_spells_nil hn a)
  | cons u used =>
      rw [List.length_append, List.length_cons]
      omega

theorem SoundUpTo.length_le {p : Phrase α} {a : α} {rest : List Token}
    (h : (value a rest).SoundUpTo stop end? p ts) : rest.length ≤ ts.length := by
  obtain ⟨used, rfl, -, -⟩ := h
  rw [List.length_append]
  omega

/-! ## One of two sorts -/

/-- When the next token starts a phrase of the first sort, what is sound for that sort is
sound for both. -/
theorem SoundUpTo.left {p q : Phrase α} (h : (either p q).Predictive)
    (ht : ts.head?.or end? = some t) (hf : p.first t.kind = true) {v : Verdict α}
    (hv : v.SoundUpTo stop end? p ts) : v.SoundUpTo stop end? (either p q) ts := by
  have hq : ¬ q.Viable [t] := by
    intro hq
    have hk := h.2.2.2 t.kind
    rw [hf, (h.2.1.first_iff t).mpr hq] at hk
    cases hk
  have hp : p.Viable [t] := (h.1.first_iff t).mp hf
  have hother : ∀ {used back x}, ts = used ++ back → back.head?.or end? = some x →
      ¬ q.Viable (used ++ [x]) := by
    intro used back x he hx hviable
    cases used with
    | nil =>
        rw [he, List.nil_append, hx] at ht
        cases ht
        exact hq hviable
    | cons u used =>
        rw [he] at ht
        cases ht
        exact hq hviable.head
  cases v with
  | value a rest =>
      obtain ⟨used, he, ha, hend⟩ := hv
      refine ⟨used, he, .inl ha, ?_⟩
      rintro x hx ⟨more, b, hb | hb⟩
      · exact hend x hx ⟨more, b, hb⟩
      · exact hother he hx ⟨more, b, hb⟩
  | refusal fault rest =>
      obtain ⟨used, back, x, he, hx, hpos, ⟨more, a, ha⟩, hn, hs⟩ := hv
      refine ⟨used, back, x, he, hx, hpos, ⟨more, a, .inl ha⟩, ?_, ?_⟩
      · rintro ⟨more, b, hb | hb⟩
        · exact hn ⟨more, b, hb⟩
        · exact hother he hx ⟨more, b, hb⟩
      · rintro hstop b (hb | hb)
        · exact hs hstop b hb
        · cases used with
          | nil =>
              rw [he, List.nil_append, hx] at ht
              cases ht
              exact hn hp
          | cons u used =>
              rw [he] at ht
              cases ht
              exact hq hb.viable.head
  | starved =>
      obtain ⟨hnone, more, a, ha⟩ := hv
      exact ⟨hnone, more, a, .inl ha⟩

theorem SoundUpTo.right {p q : Phrase α} (h : (either p q).Predictive)
    (ht : ts.head?.or end? = some t) (hf : q.first t.kind = true) {v : Verdict α}
    (hv : v.SoundUpTo stop end? q ts) : v.SoundUpTo stop end? (either p q) ts := by
  have h' : (either q p).Predictive :=
    ⟨h.2.1, h.1, by rw [Bool.and_comm]; exact h.2.2.1, fun k => by
      rw [Bool.and_comm]
      exact h.2.2.2 k⟩
  exact (hv.left h' ht hf).congr (either_comm q p)

/-- A token that starts no phrase is refused where it stands. -/
theorem sound_refusal {p : Phrase α} (h : p.Predictive) (ht : ts.head?.or end? = some t)
    (hf : p.first t.kind = false) (hn : stop ts → p.nullable = false) (cause : Cause)
    (rest : List Token) :
    (refusal ⟨t.position, cause⟩ rest : Verdict α).SoundUpTo stop end? p ts := by
  refine ⟨[], ts, t, rfl, ht, rfl, h.viable_nil, ?_, fun hstop => not_spells_nil (hn hstop)⟩
  intro hv
  rw [(h.first_iff t).mpr hv] at hf
  cases hf

/-- A token that starts no phrase ends an empty one. -/
theorem sound_stay {p : Phrase α} (h : p.Predictive) (ht : ts.head?.or end? = some t)
    (hf : p.first t.kind = false) {a : α} (ha : p.Spells [] a) :
    (value a ts).SoundUpTo stop end? p ts := by
  refine ⟨[], rfl, ha, fun x hx hv => ?_⟩
  rw [ht] at hx
  cases hx
  rw [(h.first_iff t).mpr hv] at hf
  cases hf

theorem sound_starved {p : Phrase α} (h : p.Predictive) (ht : ts.head?.or end? = none) :
    (starved : Verdict α).SoundUpTo stop end? p ts := by
  rw [Option.or_eq_none_iff, List.head?_eq_none_iff] at ht
  rw [ht.1]
  exact ⟨ht.2, h.viable_nil⟩

/-- A token that is not the end of the source is the first one of those ahead. -/
theorem eq_cons_tail (he : IsEnd end?) (ht : ts.head?.or end? = some t) (hk : t.kind ≠ .eos) :
    ts = t :: ts.tail := by
  cases ts with
  | nil => exact absurd (he t ht) hk
  | cons x xs => cases ht; rfl

theorem sound_take (fits : TokenKind → Bool) (hfits : fits .eos = false) (he : IsEnd end?)
    (ht : ts.head?.or end? = some t) (hf : fits t.kind = true) :
    (value t ts.tail).Sound end? (token fits) ts := by
  have hk : t.kind ≠ .eos := by
    intro hk
    rw [hk, hfits] at hf
    cases hf
  refine ⟨[t], eq_cons_tail he ht hk, ⟨rfl, hf⟩, ?_⟩
  rintro x - ⟨more, a, hx, -⟩
  simp at hx

end Verdict

/-! ## Rules -/

/-- All verdicts of the rule on fewer than `n` tokens are sound for the phrase. -/
structure Recognizes (n : Nat) (rule : Rule α) (p : Phrase α) : Prop where
  predictive : p.Predictive
  sound : ∀ (end? : Option Token) (ts : List Token), IsEnd end? → ts.length < n →
    (rule.follow end? ts).Sound end? p ts

namespace Recognizes

variable {n : Nat}

theorem congr {rule : Rule α} {p q : Phrase α} (h : Recognizes n rule p)
    (he : Equivalent p q) (hq : q.Predictive) : Recognizes n rule q :=
  ⟨hq, fun end? ts hend hlen => (h.sound end? ts hend hlen).congr he⟩

theorem mono {rule : Rule α} {p : Phrase α} (h : Recognizes n rule p) {less : Nat}
    (hle : less ≤ n) : Recognizes less rule p :=
  ⟨h.predictive, fun end? ts hend hlen =>
    h.sound end? ts hend (Nat.lt_of_lt_of_le hlen hle)⟩

/-- On fewer than no tokens at all, everything is recognized. -/
theorem zero (rule : Rule α) {p : Phrase α} (h : p.Predictive) : Recognizes 0 rule p :=
  ⟨h, fun _ _ _ hlen => absurd hlen (Nat.not_lt_zero _)⟩

theorem map {rule : Rule α} {p : Phrase α} (h : Recognizes n rule p) (f : α → β) :
    Recognizes n (f <$> rule) (f <$> p) := by
  refine ⟨h.predictive, fun end? ts hend hlen => ?_⟩
  rw [Rule.follow_map]
  exact (h.sound end? ts hend hlen).map f

theorem seq {rule : Rule (α → β)} {rule' : Rule α} {p : Phrase (α → β)} {q : Phrase α}
    (h : Recognizes n rule p) (h' : Recognizes n rule' q)
    (hdis : ∀ k, (p.more k && q.first k) = false) :
    Recognizes n (rule <*> rule') (p <*> q) := by
  have hpred : (Phrase.seq p q).Predictive := ⟨h.predictive, h'.predictive, hdis⟩
  refine ⟨hpred, fun end? ts hend hlen => ?_⟩
  have hv := h.sound end? ts hend hlen
  have hid : Equivalent (id <$> p <*> q) (p <*> q) := by
    intro ws b
    constructor
    · rintro ⟨us, vs, f, a, he, ⟨_, hf, rfl⟩, ha, hb⟩
      exact ⟨us, vs, _, a, he, hf, ha, hb⟩
    · rintro ⟨us, vs, f, a, he, hf, ha, hb⟩
      exact ⟨us, vs, f, a, he, ⟨f, hf, rfl⟩, ha, hb⟩
  rw [seq_eq_bind_map, Rule.follow_bind]
  have hid' : (Phrase.seq (id <$> p) q).Predictive := hpred
  refine (hv.bind hid' fun f rest hvalue => ?_).congr hid
  rw [hvalue] at hv
  exact (h'.map f).sound end? rest hend (Nat.lt_of_le_of_lt hv.length_le hlen)

theorem takeIf (fits : TokenKind → Bool) (hfits : (token fits).Predictive) (cause : Cause) :
    Recognizes n (Rule.takeIf fits cause) (token fits) := by
  refine ⟨hfits, fun end? ts hend _ => ?_⟩
  rw [Rule.takeIf, Rule.follow_next_bind]
  cases ht : ts.head?.or end? with
  | none => exact Verdict.sound_starved hfits ht
  | some t =>
      dsimp only
      split
      · next hf => exact Verdict.sound_take fits hfits.1 hend ht hf
      · next hf => exact Verdict.sound_refusal hfits ht (Bool.eq_false_of_not_eq_true hf) (fun _ => rfl) cause ts.tail

theorem predictive_token {kind : TokenKind} (hk : kind ≠ .eos) :
    (token (· = kind)).Predictive :=
  ⟨by simpa using hk.symm, kind, by simp⟩

theorem expect {kind : TokenKind} (hk : kind ≠ .eos) (part : Missing) :
    Recognizes n (Rule.expect kind part) (token (· = kind)) :=
  takeIf _ (predictive_token hk) (.missing part)

theorem marked (kind : TokenKind) (hk : kind ≠ .eos) (part : Missing) :
    Recognizes n (Token.position <$> Rule.expect kind part) (mark kind) :=
  (expect hk part).map Token.position

theorem predictive_optional {p : Phrase α} (h : p.Predictive) (hn : p.nullable = false) :
    (optional p).Predictive := by
  refine ⟨h, trivial, ?_, fun k => ?_⟩
  · show (p.nullable && true) = false
    rw [hn]
    rfl
  · show (p.first k && false) = false
    rw [Bool.and_false]

/-- What is looked for only when its first token is next. -/
theorem whenNext (rule : Rule α) {p : Phrase α} {kind : TokenKind} (hp : p.Predictive)
    (hfirst : ∀ k, p.first k = decide (k = kind)) (hn : p.nullable = false)
    (hsound : ∀ end? ts t, IsEnd end? → ts.length < n → ts.head?.or end? = some t →
      t.kind = kind → (rule.follow end? ts).Sound end? p ts) :
    Recognizes n (Rule.whenNext kind rule) (optional p) := by
  have hpred := predictive_optional hp hn
  refine ⟨hpred, fun end? ts hend hlen => ?_⟩
  rw [Rule.whenNext, Rule.follow_peek_bind]
  cases ht : ts.head?.or end? with
  | none => exact Verdict.sound_starved hpred ht
  | some t =>
      dsimp only
      split
      · next hk =>
          rw [Rule.follow_map]
          have hv := (hsound end? ts t hend hlen ht hk).map some
          exact hv.left hpred ht ((hfirst t.kind).trans (by simpa using hk))
      · next hk =>
          refine Verdict.sound_stay hpred ht ?_ (.inr ⟨rfl, rfl⟩)
          show (p.first t.kind || false) = false
          rw [hfirst, Bool.or_false]
          simpa using hk

theorem accept? (kind : TokenKind) (hk : kind ≠ .eos) :
    Recognizes n (Rule.accept? kind) (optional (token (· = kind))) := by
  have hpred := predictive_token hk
  refine whenNext Rule.next hpred (fun k => rfl) rfl ?_
  intro end? ts t hend _ ht hkind
  rw [Rule.follow_next ht]
  exact Verdict.sound_take _ hpred.1 hend ht (by simpa using hkind)

end Recognizes

end SoliditySource
