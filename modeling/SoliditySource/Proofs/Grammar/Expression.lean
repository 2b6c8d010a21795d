import SoliditySource.Proofs.Grammar.Phrases

/-! # Names, types and expressions are recognized

Each rule recognizes the phrases of its construct. The proofs go along the rules; where a
rule looks at the next token, the kinds are gone through.
-/

namespace SoliditySource

open Phrase

namespace Recognizes

variable {α : Type} {n : Nat}

/-! ## Rules that look first -/

theorem peek {f : Token → Rule α} {p : Phrase α} (hp : p.Predictive)
    (h : ∀ end? ts t, IsEnd end? → ts.length < n → ts.head?.or end? = some t →
      ((f t).follow end? ts).Sound end? p ts) : Recognizes n (Rule.peek >>= f) p := by
  refine ⟨hp, fun end? ts hend hlen => ?_⟩
  rw [Rule.follow_peek_bind]
  cases ht : ts.head?.or end? with
  | none => exact Verdict.sound_starved hp ht
  | some t => exact h end? ts t hend hlen ht

theorem choose {choice : Choice} {f : Token → Rule α} {p : Phrase α} (hp : p.Predictive)
    (h : ∀ end? ts t, IsEnd end? → ts.length < n → ts.head?.or end? = some t →
      ((f t).follow end? ts).Sound end? p ts) :
    Recognizes n (Rule.choose choice >>= f) p := by
  refine ⟨hp, fun end? ts hend hlen => ?_⟩
  rw [Rule.follow_choose_bind]
  exact (peek hp h).sound end? ts hend hlen

theorem next {f : Token → Rule α} {p : Phrase α} (hp : p.Predictive)
    (h : ∀ end? ts t, IsEnd end? → ts.length < n → ts.head?.or end? = some t →
      ((f t).follow end? ts.tail).Sound end? p ts) : Recognizes n (Rule.next >>= f) p := by
  refine ⟨hp, fun end? ts hend hlen => ?_⟩
  rw [Rule.follow_next_bind]
  cases ht : ts.head?.or end? with
  | none => exact Verdict.sound_starved hp ht
  | some t => exact h end? ts t hend hlen ht

/-- A token of the given kind that is next, and what comes after it. -/
theorem sound_marked {β : Type} {kind : TokenKind} {g : Position → α → β} {rule : Rule α}
    {p : Phrase α} (h : Recognizes n rule p) (hk : kind ≠ .eos)
    {end? : Option Token} {ts : List Token} {t : Token} (hend : IsEnd end?)
    (hlen : ts.length < n + 1) (ht : ts.head?.or end? = some t) (hkind : t.kind = kind) :
    ((Rule.next >>= fun t => g t.position <$> rule).follow end? ts).Sound end?
      (g <$> Phrase.mark kind <*> p) ts := by
  have hpred : (Phrase.seq (g <$> Phrase.mark kind) p).Predictive :=
    ⟨predictive_mark hk, h.predictive, fun k => rfl⟩
  have htake := Verdict.sound_take (· = kind) (by simpa using hk.symm) hend ht
    (by simpa using hkind)
  have hts := Verdict.eq_cons_tail hend ht (by rw [hkind]; exact hk)
  have hlen' : ts.tail.length < n := by
    rw [hts, List.length_cons] at hlen
    omega
  rw [Rule.follow_next_bind, ht]
  exact (htake.map Token.position).bind hpred (w := fun _ rest => _) fun p rest hv => by
    cases hv
    exact (h.map (g t.position)).sound end? ts.tail hend hlen'

/-! ## Names -/

theorem identifier : Recognizes n Grammar.identifier Phrase.identifier :=
  takeIf TokenKind.isIdentifierLike ⟨rfl, .identifier, rfl⟩ .reservedName

theorem identifierPath : Recognizes n (Grammar.identifierPath n) Phrase.identifierPath := by
  have h := (separatedBy .period (identifier (n := n)) (by decide) rfl
    (Nat.le_refl n)).map IdentifierPath.mk
  simpa only [Grammar.identifierPath, Phrase.identifierPath, map_eq_pure_bind] using h

theorem rename : Recognizes n Grammar.rename Phrase.rename := by
  have hrule : Grammar.rename = Rule.whenNext .kwAs
      (Rule.next >>= fun t => Alias.mk t.position <$> Grammar.identifier) := by
    rw [← accept?_bind, Grammar.rename]
    congr 1
    funext o
    cases o with
    | none => rfl
    | some t => simp only [map_eq_pure_bind, bind_assoc, pure_bind]
  have hpred : (Phrase.seq (Alias.mk <$> mark .kwAs) Phrase.identifier).Predictive :=
    ⟨predictive_mark (by decide), (identifier (n := 0)).predictive, fun k => rfl⟩
  rw [hrule]
  refine whenNext _ hpred (fun k => by simp) rfl fun end? ts t hend hlen ht hkind => ?_
  exact sound_marked (n := n) identifier (by decide) hend (Nat.lt_succ_of_lt hlen) ht hkind

/-! ## Types -/

theorem elementaryTypeName :
    Recognizes n Grammar.elementaryTypeName Phrase.elementaryTypeName := by
  have haddress : (Phrase.seq (ElementaryTypeName.mk <$> token (· = .kwAddress))
      (optional (token (· = .kwPayable)))).Predictive :=
    ⟨predictive_token (by decide), predictive_optional (predictive_token (by decide)) rfl,
      fun k => rfl⟩
  have hpred : Phrase.elementaryTypeName.Predictive :=
    ⟨haddress, ⟨rfl, .kwBool, rfl⟩, rfl, fun k => by cases k <;> rfl⟩
  rw [Grammar.elementaryTypeName, Rule.takeIf, bind_assoc]
  refine next hpred fun end? ts t hend hlen ht => ?_
  by_cases hk : t.kind = .kwAddress
  · have htake := Verdict.sound_take (· = .kwAddress) rfl hend ht (by simpa using hk)
    have hfits : t.kind.isElementaryType = true := by rw [hk]; rfl
    rw [if_pos hfits, pure_bind, if_pos hk]
    refine Verdict.SoundUpTo.left hpred ht (by rw [hk]; rfl) ?_
    refine htake.bind haddress (w := fun t rest =>
      (Rule.accept? .kwPayable >>= fun payable => Pure.pure ⟨t, payable⟩).follow end? rest) ?_
    intro a rest hv
    cases hv
    have hpay := ((accept? (n := n) .kwPayable (by decide)).map
      (ElementaryTypeName.mk t)).sound end? ts.tail hend (Nat.lt_of_le_of_lt (by simp) hlen)
    simpa only [map_eq_pure_bind] using hpay
  · by_cases hfits : t.kind.isElementaryType = true
    · have hother : (t.kind.isElementaryType && decide (t.kind ≠ .kwAddress)) = true := by
        simp [hfits, hk]
      have htake := Verdict.sound_take
        (fun k => k.isElementaryType && k ≠ .kwAddress) rfl hend ht hother
      rw [if_pos hfits, pure_bind, if_neg hk]
      exact (htake.map fun t => ElementaryTypeName.mk t none).right hpred ht hother
    · have hfirst : Phrase.elementaryTypeName.first t.kind = false := by
        have hfits : t.kind.isElementaryType = false := by simpa using hfits
        show (decide (t.kind = .kwAddress) || _ || (t.kind.isElementaryType && _)) = false
        rw [hfits, decide_eq_false hk]
        rfl
      rw [if_neg hfits]
      exact Verdict.sound_refusal hpred ht hfirst (fun _ => rfl) _ _

theorem typeName : Recognizes n Grammar.typeName Phrase.typeName := by
  have hpred : Phrase.typeName.Predictive := (elementaryTypeName (n := n)).predictive
  refine choose hpred fun end? ts t hend hlen ht => ?_
  by_cases hfits : t.kind.isElementaryType = true
  · rw [if_pos hfits]
    exact (elementaryTypeName.map TypeName.elementary).sound end? ts hend hlen
  · have hfirst : Phrase.typeName.first t.kind = false := by
      have hfits : t.kind.isElementaryType = false := by simpa using hfits
      have hk : ¬ t.kind = .kwAddress := by
        intro hk
        rw [hk] at hfits
        cases hfits
      show (decide (t.kind = .kwAddress) || _ || (t.kind.isElementaryType && _)) = false
      rw [hfits, decide_eq_false hk]
      rfl
    rw [if_neg hfits]
    exact Verdict.sound_refusal hpred ht hfirst (fun _ => rfl) _ _

theorem parameter : Recognizes n Grammar.parameter Phrase.parameter :=
  typeName.map Parameter.mk

theorem parameterList : Recognizes n (Grammar.parameterList n) Phrase.parameterList := by
  have h := (separatedBy .comma (parameter (n := n)) (by decide) rfl
    (Nat.le_refl n)).map fun l =>
      ParameterList.mk (Separated.items l) (Separated.separators l)
  simpa only [Grammar.parameterList, Phrase.parameterList, map_eq_pure_bind] using h

/-! ## Expressions -/

theorem predictive_literal : Phrase.literal.Predictive :=
  ⟨⟨rfl, .emptyString, rfl⟩,
    ⟨⟨rfl, .kwTrue, rfl⟩, ⟨rfl, .number, rfl⟩, rfl, fun k => by cases k <;> rfl⟩, rfl,
    fun k => by cases k <;> rfl⟩

/-- The kinds of literals are those that may start one. -/
theorem isLiteral_eq_first (kind : TokenKind) :
    Grammar.isLiteral kind = Phrase.literal.first kind := by
  have hfirst : Phrase.literal.first kind = (kind.isStringLiteral ||
      ((kind = .kwTrue || kind = .kwFalse) || kind = .number)) := rfl
  rw [hfirst, Grammar.isLiteral, Bool.or_assoc, Bool.or_assoc, Bool.or_assoc]

theorem literal : Recognizes n Grammar.literal Phrase.literal := by
  refine next predictive_literal fun end? ts t hend hlen ht => ?_
  have hsome := (Grammar.isSome_literalOf? t).trans (isLiteral_eq_first t.kind)
  cases hl : Grammar.literalOf? t with
  | none =>
      rw [hl] at hsome
      exact Verdict.sound_refusal predictive_literal ht hsome.symm (fun _ => rfl) _ _
  | some l =>
      dsimp only
      rw [Grammar.literalOf?] at hl
      split at hl
      · next h =>
          cases hl
          have htake := Verdict.sound_take TokenKind.isStringLiteral rfl hend ht h
          exact (htake.map _).left predictive_literal ht h
      · split at hl
        · next h =>
            cases hl
            have h : (decide (t.kind = .kwTrue) || decide (t.kind = .kwFalse)) = true := by
              simpa using h
            have htake := Verdict.sound_take
              (fun k => k = .kwTrue || k = .kwFalse) rfl hend ht h
            have hinner := (htake.map fun t => Literal.boolean ⟨t⟩).left
              predictive_literal.2.1 ht h
            refine hinner.right predictive_literal ht ?_
            show ((_ || _) || _) = true
            rw [h]
            rfl
        · split at hl
          · next h =>
              cases hl
              have htake := Verdict.sound_take (· = .number) rfl hend ht
                (by simpa using h)
              have hinner := (htake.map fun t => Literal.number ⟨t⟩).right
                predictive_literal.2.1 ht (by rw [h]; rfl)
              refine hinner.right predictive_literal ht ?_
              rw [h]
              rfl
          · cases hl

theorem expression : Recognizes n Grammar.expression Phrase.expression := by
  have hpred : Phrase.expression.Predictive :=
    ⟨predictive_literal, (identifier (n := n)).predictive, rfl,
      fun k => by cases k <;> rfl⟩
  refine choose hpred fun end? ts t hend hlen ht => ?_
  rw [isLiteral_eq_first]
  by_cases hl : Phrase.literal.first t.kind = true
  · rw [if_pos hl]
    exact ((literal.map Expression.literal).sound end? ts hend hlen).left hpred ht hl
  · rw [if_neg hl]
    by_cases hi : t.kind.isIdentifierLike = true
    · rw [if_pos hi]
      exact ((identifier.map Expression.identifier).sound end? ts hend hlen).right hpred ht hi
    · rw [if_neg hi]
      refine Verdict.sound_refusal hpred ht ?_ (fun _ => rfl) _ _
      show (Phrase.literal.first t.kind || t.kind.isIdentifierLike) = false
      rw [Bool.eq_false_of_not_eq_true hl, Bool.eq_false_of_not_eq_true hi]
      rfl

theorem namedArgument : Recognizes n Grammar.namedArgument Phrase.namedArgument := by
  have h := ((identifier (n := n)).map NamedArgument.mk).seq
    (marked .colon (by decide) .colon) (fun k => rfl) |>.seq expression fun k => rfl
  simpa only [Grammar.namedArgument, Phrase.namedArgument, map_eq_pure_bind, seq_eq_bind_map,
    bind_assoc, pure_bind] using h

theorem namedArguments :
    Recognizes n (Grammar.namedArguments n) Phrase.namedArguments := by
  have hlist := separatedBy .comma (namedArgument (n := n)) (by decide) rfl
    (Nat.le_refl n)
  have h := ((marked (n := n) .lbrace (by decide) .lbrace).map
    NamedArguments.mk).seq hlist (fun k => rfl) |>.seq
    (marked .rbrace (by decide) .rbrace) fun k => by cases k <;> rfl
  simpa only [Grammar.namedArguments, Phrase.namedArguments, map_eq_pure_bind, seq_eq_bind_map,
    bind_assoc, pure_bind] using h

/-- On a token that starts no phrase, a sound verdict refuses that token. -/
theorem refusal_of_not_first {p : Phrase α} {end? : Option Token} {ts : List Token} {t : Token}
    {v : Verdict α} (hv : v.Sound end? p ts) (hp : p.Predictive)
    (ht : ts.head?.or end? = some t) (hf : p.first t.kind = false) (hn : p.nullable = false) :
    ∃ cause rest, v = .refusal ⟨t.position, cause⟩ rest := by
  -- nothing can have been used before `t`
  have hused : ∀ {used back}, ts = used ++ back → p.Viable used → used = [] := by
    intro used back he hviable
    cases used with
    | nil => rfl
    | cons u used =>
        rw [he] at ht
        cases ht
        rw [(hp.first_iff _).mpr hviable.head] at hf
        cases hf
  cases v with
  | value a rest =>
      obtain ⟨used, he, ha, -⟩ := hv
      have hnil := hused he ha.viable
      subst hnil
      exact absurd ha (not_spells_nil hn a)
  | refusal fault rest =>
      obtain ⟨used, back, x, he, hx, hpos, hviable, -, -⟩ := hv
      have hnil := hused he hviable
      subst hnil
      rw [he, List.nil_append, hx] at ht
      cases ht
      exact ⟨fault.cause, rest, by rw [← hpos]⟩
  | starved =>
      obtain ⟨hnone, hviable⟩ := hv
      have hnil := hused (List.append_nil ts).symm hviable
      rw [hnil, hnone] at ht
      cases ht

theorem positional :
    Recognizes n (Rule.separatedBy .comma Grammar.expression n)
      (separated .comma Phrase.expression) :=
  separatedBy .comma expression (by decide) rfl (Nat.le_refl n)

theorem predictive_callArguments : Phrase.callArguments.Predictive :=
  ⟨(namedArguments (n := 0)).predictive, (positional (n := 0)).predictive, rfl,
    fun k => by cases k <;> rfl⟩

theorem predictive_closedArguments : closedArguments.Predictive :=
  ⟨predictive_mark (by decide),
    ⟨predictive_callArguments, predictive_mark (by decide), fun k => by cases k <;> rfl⟩, rfl,
    fun k => by cases k <;> rfl⟩

theorem first_callArguments (k : TokenKind) :
    Phrase.callArguments.first k = (k = .lbrace || Phrase.expression.first k) := by
  have hpositional : (separated .comma Phrase.expression).first k = Phrase.expression.first k :=
    first_seq_of _ _ _ rfl
  have hnamed : Phrase.namedArguments.first k = decide (k = .lbrace) := by
    rw [Phrase.namedArguments, first_seq_of _ _ _ rfl, first_seq_of _ _ _ rfl]
    rfl
  rw [Phrase.callArguments, first_either, first_map, first_map, hnamed, hpositional]

theorem first_closedArguments (k : TokenKind) :
    Phrase.closedArguments.first k =
      (k = .rparen || (k = .lbrace || Phrase.expression.first k)) := by
  rw [Phrase.closedArguments, first_either, first_map, first_mark, first_seq_of _ _ _ rfl,
    first_map, first_callArguments]

/-- The arguments and the parenthesis behind them; only together they are told apart from
the first token. -/
theorem closedArguments :
    Recognizes n
      (Grammar.callArguments n >>= fun arguments =>
        (fun rparen => (arguments, rparen)) <$> (Token.position <$> Rule.expect .rparen .rparen))
      Phrase.closedArguments := by
  have hclose : Recognizes n (Token.position <$> Rule.expect .rparen .rparen)
      (mark .rparen) := marked .rparen (by decide) .rparen
  -- arguments that are there, and the parenthesis
  have hargs : ∀ {rule : Rule CallArguments} {end? : Option Token} {ts : List Token},
      IsEnd end? → ts.length < n →
      (rule.follow end? ts).Sound end? Phrase.callArguments ts →
      ((rule >>= fun arguments => (fun rparen => (arguments, rparen)) <$>
          (Token.position <$> Rule.expect .rparen .rparen)).follow end? ts).Sound end?
        (Prod.mk <$> Phrase.callArguments <*> mark .rparen) ts := by
    intro rule end? ts hend hlen hv
    rw [Rule.follow_bind]
    refine hv.bind predictive_closedArguments.2.1 fun a rest hvalue => ?_
    rw [hvalue] at hv
    exact (hclose.map (Prod.mk a)).sound end? rest hend (Nat.lt_of_le_of_lt hv.length_le hlen)
  rw [Grammar.callArguments, bind_assoc]
  refine peek predictive_closedArguments fun end? ts t hend hlen ht => ?_
  split
  · next hk =>
      have hv := (hclose.map (Prod.mk CallArguments.empty)).sound end? ts hend hlen
      exact hv.left predictive_closedArguments ht (by rw [hk]; rfl)
  · next hk =>
      have hv := ((namedArguments.map CallArguments.named).sound end? ts hend hlen).left
        predictive_callArguments ht (by rw [hk]; rfl)
      exact (hargs hend hlen hv).right predictive_closedArguments ht (by rw [hk]; rfl)
  · next hrparen hlbrace =>
      have hv := (positional.map CallArguments.positional).sound end? ts hend hlen
      have hlist : (CallArguments.positional <$> separated .comma Phrase.expression).first t.kind =
          Phrase.expression.first t.kind := first_seq_of _ _ _ rfl
      by_cases hf : Phrase.expression.first t.kind = true
      · have hv' := hargs hend hlen (hv.right predictive_callArguments ht (hlist.trans hf))
        refine hv'.right predictive_closedArguments ht ?_
        rw [first_seq_of _ _ _ rfl, first_map, first_callArguments, hf, Bool.or_true]
      · have hf : Phrase.expression.first t.kind = false := Bool.eq_false_of_not_eq_true hf
        obtain ⟨cause, rest, hr⟩ := refusal_of_not_first hv
          (p := CallArguments.positional <$> separated .comma Phrase.expression)
          (positional (n := 0)).predictive ht (hlist.trans hf) rfl
        rw [Rule.follow_bind, hr]
        refine Verdict.sound_refusal predictive_closedArguments ht ?_ (fun _ => rfl) cause rest
        rw [first_closedArguments, decide_eq_false hrparen, decide_eq_false hlbrace, hf]
        rfl

theorem callArgumentList :
    Recognizes n (Grammar.callArgumentList n) Phrase.callArgumentList := by
  have h := ((marked (n := n) .lparen (by decide) .lparen).map
    fun lparen closed => CallArgumentList.mk lparen closed.1 closed.2).seq closedArguments
    fun k => rfl
  simpa only [Grammar.callArgumentList, Phrase.callArgumentList, map_eq_pure_bind,
    seq_eq_bind_map, bind_assoc, pure_bind] using h

end Recognizes

end SoliditySource
