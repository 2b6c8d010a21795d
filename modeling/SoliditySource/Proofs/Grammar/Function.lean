import SoliditySource.Proofs.Grammar.Expression

/-! # Functions are recognized -/

namespace SoliditySource

open Phrase

namespace Recognizes

variable {n : Nat}

theorem returnStatement : Recognizes n Grammar.returnStatement Phrase.returnStatement := by
  have h := (((marked (n := n) .kwReturn (by decide) .returnKeyword).map
    ReturnStatement.mk).seq expression fun k => rfl).seq
    (marked .semicolon (by decide) .statementEnd) fun k => rfl
  simpa only [Grammar.returnStatement, Phrase.returnStatement, map_eq_pure_bind,
    seq_eq_bind_map, bind_assoc, pure_bind] using h

theorem statement : Recognizes n Grammar.statement Phrase.statement := by
  have hpred : Phrase.statement.Predictive := (returnStatement (n := n)).predictive
  refine choose hpred fun end? ts t hend hlen ht => ?_
  split
  · exact (returnStatement.map Statement.returning).sound end? ts hend hlen
  · next hk =>
      refine Verdict.sound_refusal hpred ht ?_ (fun _ => rfl) _ _
      rw [Phrase.statement, first_map, Phrase.returnStatement, first_seq_of _ _ _ rfl,
        first_seq_of _ _ _ rfl, first_map, first_mark]
      exact decide_eq_false hk

theorem block : Recognizes n Grammar.block Phrase.block := by
  have h := ((marked (n := n) .lbrace (by decide) .lbrace).map
    fun lbrace s rbrace => Block.mk lbrace [s] rbrace).seq statement (fun k => rfl) |>.seq
    (marked .rbrace (by decide) .rbrace) fun k => rfl
  simpa only [Grammar.block, Phrase.block, map_eq_pure_bind, seq_eq_bind_map, bind_assoc,
    pure_bind] using h

theorem visibility : Recognizes n Grammar.visibility Phrase.visibility :=
  takeIf TokenKind.isVisibility ⟨rfl, .kwPublic, rfl⟩ (.missing .visibility)

theorem stateMutability : Recognizes n Grammar.stateMutability Phrase.stateMutability :=
  takeIf TokenKind.isStateMutability ⟨rfl, .kwPure, rfl⟩ (.missing .stateMutability)

theorem predictive_modifier : modifier.Predictive :=
  ⟨⟨rfl, .kwPublic, rfl⟩, ⟨rfl, .kwPure, rfl⟩, rfl, fun k => by cases k <;> rfl⟩

theorem modifiers (seen : Modifiers) :
    Recognizes n (Grammar.modifiers n seen) (modifiersAfter seen) := by
  have hmany : (many modifier).Predictive :=
    ⟨predictive_modifier, rfl, fun k => rfl⟩
  induction n generalizing seen with
  | zero => exact zero _ hmany
  | succ n ih =>
      have hagain : (either ((fun change changes =>
          (change :: changes).foldl (fun m change => change m) seen) <$> modifier <*> many modifier)
          (empty seen)).Predictive :=
        ⟨⟨predictive_modifier, hmany, fun k => rfl⟩, trivial, rfl, fun k => Bool.and_false _⟩
      -- one modifier, and the others after it
      have hone : ∀ {end? : Option Token} {ts : List Token} {t : Token}
          {change : Modifiers → Modifiers}, IsEnd end? → ts.length < n + 1 →
          ts.head?.or end? = some t → modifier.first t.kind = true →
          (Verdict.value change ts.tail).Sound end? modifier ts →
          ((Grammar.modifiers n (change seen)).follow end? ts.tail).Sound end?
            (modifiersAfter seen) ts := by
        intro end? ts t change hend hlen ht hf hv
        have hx := hv.bind hagain.1
          (w := fun change rest => (Grammar.modifiers n (change seen)).follow end? rest)
          fun change rest hvalue => by
            cases hvalue
            have hlt := hv.length_lt rfl
            exact (ih (change seen)).sound end? ts.tail hend (by omega)
        exact (hx.left hagain ht ((first_seq_of _ _ _ rfl).trans hf)).congr
          (map_many_unfold modifier _)
      rw [Grammar.modifiers]
      refine peek hmany fun end? ts t hend hlen ht => ?_
      by_cases hvis : t.kind.isVisibility = true
      · have hfollow : Grammar.visibility.follow end? ts = .value t ts.tail := by
          rw [Grammar.visibility, Rule.takeIf, Rule.follow_next_bind, ht]
          dsimp only
          rw [if_pos hvis]
          rfl
        have htake := (Verdict.sound_take TokenKind.isVisibility rfl hend ht hvis).map
          fun t (m : Modifiers) => { m with visibility := some t }
        rw [if_pos hvis, Rule.follow_bind, hfollow]
        exact hone hend hlen ht (by
          show (t.kind.isVisibility || _) = true
          rw [hvis]
          rfl) (htake.left predictive_modifier ht hvis)
      · rw [if_neg hvis]
        by_cases hmut : t.kind.isStateMutability = true
        · have hfollow : Grammar.stateMutability.follow end? ts = .value t ts.tail := by
            rw [Grammar.stateMutability, Rule.takeIf, Rule.follow_next_bind, ht]
            dsimp only
            rw [if_pos hmut]
            rfl
          have htake := (Verdict.sound_take TokenKind.isStateMutability rfl hend ht
            hmut).map fun t (m : Modifiers) => { m with stateMutability := some t }
          rw [if_pos hmut, Rule.follow_bind, hfollow]
          exact hone hend hlen ht (by
            show (_ || t.kind.isStateMutability) = true
            rw [hmut, Bool.or_true]) (htake.right predictive_modifier ht hmut)
        · rw [if_neg hmut]
          refine Verdict.sound_stay (p := modifiersAfter seen) hmany ht ?_ ⟨[], .nil, rfl⟩
          show (t.kind.isVisibility || t.kind.isStateMutability) = false
          rw [Bool.eq_false_of_not_eq_true hvis, Bool.eq_false_of_not_eq_true hmut]
          rfl

theorem functionDescriptor :
    Recognizes n Grammar.functionDescriptor Phrase.functionDescriptor := by
  have hpred : Phrase.functionDescriptor.Predictive := ⟨rfl, .identifier, rfl⟩
  have hnext : ∀ {end? : Option Token} {ts : List Token} {t : Token}, IsEnd end? →
      ts.head?.or end? = some t → Phrase.functionDescriptor.first t.kind = true →
      (Rule.next.follow end? ts).Sound end? Phrase.functionDescriptor ts := by
    intro end? ts t hend ht hf
    rw [Rule.follow_next ht]
    exact Verdict.sound_take _ hpred.1 hend ht hf
  refine peek hpred fun end? ts t hend hlen ht => ?_
  split
  · next hk => exact hnext hend ht (by rw [hk]; rfl)
  · next hk => exact hnext hend ht (by rw [hk]; rfl)
  · next hfallback hreceive =>
      rw [Grammar.identifier, Rule.takeIf, Rule.follow_next_bind, ht]
      have hfirst : Phrase.functionDescriptor.first t.kind = t.kind.isIdentifierLike := by
        rw [Phrase.functionDescriptor, first_token, decide_eq_false hfallback,
          decide_eq_false hreceive, Bool.or_false, Bool.or_false]
      by_cases hi : t.kind.isIdentifierLike = true
      · dsimp only
        rw [if_pos hi]
        exact Verdict.sound_take _ hpred.1 hend ht (hfirst.trans hi)
      · dsimp only
        rw [if_neg hi]
        exact Verdict.sound_refusal hpred ht
          (hfirst.trans (Bool.eq_false_of_not_eq_true hi)) (fun _ => rfl) _ _

theorem functionReturns :
    Recognizes n (Grammar.functionReturns n) Phrase.functionReturns := by
  have h := (((marked (n := n) .kwReturns (by decide) .returnsKeyword).map
    FunctionReturns.mk).seq (marked .lparen (by decide) .lparen) (fun k => rfl)
    |>.seq parameterList fun k => rfl).seq (marked .rparen (by decide) .rparen)
    fun k => by cases k <;> rfl
  simpa only [Grammar.functionReturns, Phrase.functionReturns, map_eq_pure_bind,
    seq_eq_bind_map, bind_assoc, pure_bind] using h

theorem functionDefinition :
    Recognizes n (Grammar.functionDefinition n) Phrase.functionDefinition := by
  have hreturns : Recognizes n (Rule.whenNext .kwReturns (Grammar.functionReturns n))
      (optional Phrase.functionReturns) :=
    whenNext _ (functionReturns (n := n)).predictive (fun k => by cases k <;> rfl) rfl
      fun end? ts _ hend hlen _ _ => functionReturns.sound end? ts hend hlen
  have h := ((marked (n := n) .kwFunction (by decide) .functionKeyword).map
    FunctionDefinition.mk).seq functionDescriptor (fun k => rfl)
    |>.seq (marked .lparen (by decide) .lparen) (fun k => rfl)
    |>.seq (marked .rparen (by decide) .rparen) (fun k => rfl)
    |>.seq (modifiers ⟨none, none⟩) (fun k => by cases k <;> rfl)
    |>.seq hreturns (fun k => by cases k <;> rfl)
    |>.seq block fun k => by cases k <;> rfl
  simpa only [Grammar.functionDefinition, Phrase.functionDefinition, map_eq_pure_bind,
    seq_eq_bind_map, bind_assoc, pure_bind] using h

end Recognizes

end SoliditySource
