import SoliditySource.Proofs.Grammar.Expression

/-! # Directives are recognized -/

namespace SoliditySource

open Phrase

namespace Recognizes

variable {n : Nat}

theorem predictive_pragmaToken : pragmaToken.Predictive := ⟨rfl, .identifier, rfl⟩

theorem predictive_upTo_semicolon : (upTo .semicolon pragmaToken).Predictive :=
  ⟨⟨predictive_pragmaToken, rfl, fun k => rfl⟩, predictive_token (by decide),
    fun k => by cases k <;> rfl⟩

/-- A token fits in a pragma unless it ends the pragma or the source. -/
theorem first_pragmaToken {k : TokenKind} (hs : k ≠ .semicolon) (he : k ≠ .eos) :
    pragmaToken.first k = true := by
  simp [pragmaToken, hs, he]

theorem pragmaRest : Recognizes n (Grammar.pragmaRest n) (upTo .semicolon pragmaToken) := by
  induction n with
  | zero => exact zero _ predictive_upTo_semicolon
  | succ n ih =>
      have hagain : (upToAgain .semicolon pragmaToken).Predictive :=
        ⟨predictive_token (by decide),
          ⟨predictive_pragmaToken, predictive_upTo_semicolon, fun k => rfl⟩, rfl,
          fun k => by cases k <;> rfl⟩
      rw [Grammar.pragmaRest]
      refine next predictive_upTo_semicolon fun end? ts t hend hlen ht => ?_
      apply Verdict.SoundUpTo.congr (upTo_unfold .semicolon pragmaToken)
      split
      · next hk =>
          have htake := Verdict.sound_take (· = .semicolon) rfl hend ht (by simpa using hk)
          exact (htake.map (Prod.mk [])).left hagain ht (by rw [hk]; rfl)
      · next hk => exact Verdict.sound_refusal hagain ht (by rw [hk]; rfl) (fun _ => rfl) _ _
      · next hs he =>
          have hf := first_pragmaToken hs he
          have htake := Verdict.sound_take _ predictive_pragmaToken.1 hend ht hf
          have hx := htake.bind hagain.2.1 (w := fun t rest =>
            ((fun r => (t :: r.1, r.2)) <$> Grammar.pragmaRest n).follow end? rest)
            fun t rest hvalue => by
              have hlt := htake.length_lt rfl
              cases hvalue
              exact (ih.map fun r => (t :: r.1, r.2)).sound end? ts.tail hend (by omega)
          have hx := hx.right hagain ht ((first_seq_of _ _ _ rfl).trans hf)
          change ((Grammar.pragmaRest n >>= fun r => Pure.pure (t :: r.1, r.2)).follow end?
            ts.tail).Sound end? _ ts
          rw [← map_eq_pure_bind]
          exact hx

/-- The tokens of a pragma; the first one must be one to keep. -/
theorem pragmaTokens :
    Recognizes n
      (Rule.next >>= fun first =>
        match first.kind with
        | .semicolon => Rule.refuseAt first (.missing .pragmaTokens)
        | .eos => Rule.refuseAt first (.missing .pragmaTokens)
        | _ => (fun rest => (first :: rest.1, rest.2)) <$> Grammar.pragmaRest n)
      Phrase.pragmaTokens := by
  have hpred : Phrase.pragmaTokens.Predictive :=
    ⟨predictive_pragmaToken, predictive_upTo_semicolon, fun k => rfl⟩
  refine next hpred fun end? ts t hend hlen ht => ?_
  split
  · next hk => exact Verdict.sound_refusal hpred ht (by rw [hk]; rfl) (fun _ => rfl) _ _
  · next hk => exact Verdict.sound_refusal hpred ht (by rw [hk]; rfl) (fun _ => rfl) _ _
  · next hs he =>
      have htake := Verdict.sound_take _ predictive_pragmaToken.1 hend ht (first_pragmaToken hs he)
      exact htake.bind hpred (w := fun t rest =>
        ((fun r => (t :: r.1, r.2)) <$> Grammar.pragmaRest n).follow end? rest)
        fun t rest hvalue => by
          have hlt := htake.length_lt rfl
          cases hvalue
          exact (pragmaRest.map fun r => (t :: r.1, r.2)).sound end? ts.tail hend (by omega)

theorem pragmaDirective :
    Recognizes n (Grammar.pragmaDirective n) Phrase.pragmaDirective := by
  have h := ((marked (n := n) .kwPragma (by decide) .pragmaKeyword).map
    fun keyword (tokens : List Token × Token) =>
      PragmaDirective.mk keyword tokens.1 tokens.2.position).seq pragmaTokens fun k => rfl
  have hrule : Grammar.pragmaDirective n =
      (fun keyword (tokens : List Token × Token) =>
        PragmaDirective.mk keyword tokens.1 tokens.2.position) <$>
        (Token.position <$> Rule.expect .kwPragma .pragmaKeyword) <*>
        (Rule.next >>= fun first =>
          match first.kind with
          | .semicolon => Rule.refuseAt first (.missing .pragmaTokens)
          | .eos => Rule.refuseAt first (.missing .pragmaTokens)
          | _ => (fun rest => (first :: rest.1, rest.2)) <$> Grammar.pragmaRest n) := by
    simp only [Grammar.pragmaDirective, map_eq_pure_bind, seq_eq_bind_map, bind_assoc, pure_bind]
    congr 1
    funext keyword
    congr 1
    funext first
    cases first.kind <;> first | rfl | simp only [bind_assoc, pure_bind]
  rw [hrule]
  exact h

theorem path : Recognizes n Grammar.path Phrase.path :=
  expect (by decide) .path

theorem importPath : Recognizes n Grammar.importPath Phrase.importPath := by
  have h := ((path (n := n)).map ImportPath.mk).seq rename fun k => rfl
  simpa only [Grammar.importPath, Phrase.importPath, map_eq_pure_bind, seq_eq_bind_map,
    bind_assoc, pure_bind] using h

theorem symbolAlias : Recognizes n Grammar.symbolAlias Phrase.symbolAlias := by
  have h := ((identifier (n := n)).map SymbolAlias.mk).seq rename fun k => rfl
  simpa only [Grammar.symbolAlias, Phrase.symbolAlias, map_eq_pure_bind, seq_eq_bind_map,
    bind_assoc, pure_bind] using h

theorem symbolAliases :
    Recognizes n (Grammar.symbolAliases n) Phrase.symbolAliases := by
  have hlist := separatedBy .comma (symbolAlias (n := n)) (by decide) rfl
    (Nat.le_refl n)
  have h := ((marked (n := n) .lbrace (by decide) .lbrace).map
    fun lbrace l rbrace =>
      SymbolAliases.mk lbrace (Separated.items l) (Separated.separators l) rbrace).seq hlist
    (fun k => rfl) |>.seq (marked .rbrace (by decide) .rbrace)
    fun k => by cases k <;> rfl
  simpa only [Grammar.symbolAliases, Phrase.symbolAliases, map_eq_pure_bind, seq_eq_bind_map,
    bind_assoc, pure_bind] using h

theorem importSymbols :
    Recognizes n (Grammar.importSymbols n) Phrase.importSymbols := by
  have h := (symbolAliases (n := n)).map ImportSymbols.mk
    |>.seq (marked .kwFrom (by decide) .fromKeyword) (fun k => rfl)
    |>.seq path fun k => rfl
  simpa only [Grammar.importSymbols, Phrase.importSymbols, map_eq_pure_bind, seq_eq_bind_map,
    bind_assoc, pure_bind] using h

theorem importWildcard : Recognizes n Grammar.importWildcard Phrase.importWildcard := by
  have h := (marked (n := n) .mul (by decide) .asterisk).map ImportWildcard.mk
    |>.seq (marked .kwAs (by decide) .asKeyword) (fun k => rfl)
    |>.seq identifier (fun k => rfl)
    |>.seq (marked .kwFrom (by decide) .fromKeyword) (fun k => rfl)
    |>.seq path fun k => rfl
  simpa only [Grammar.importWildcard, Phrase.importWildcard, map_eq_pure_bind, seq_eq_bind_map,
    bind_assoc, pure_bind] using h

theorem predictive_importElement : Phrase.importElement.Predictive :=
  ⟨(importPath (n := 0)).predictive,
    ⟨(importSymbols (n := 0)).predictive, (importWildcard (n := 0)).predictive, rfl,
      fun k => by cases k <;> rfl⟩, rfl, fun k => by cases k <;> rfl⟩

theorem first_importElement (k : TokenKind) :
    Phrase.importElement.first k = (k = .nonEmptyString || (k = .lbrace || k = .mul)) := by
  cases k <;> rfl

theorem importElement :
    Recognizes n (Grammar.importElement n) Phrase.importElement := by
  refine choose predictive_importElement fun end? ts t hend hlen ht => ?_
  split
  · next hk =>
      have hv := (importPath.map ImportElement.path).sound end? ts hend hlen
      exact hv.left predictive_importElement ht (by rw [hk]; rfl)
  · next hk =>
      have hv := (importSymbols.map ImportElement.symbols).sound end? ts hend hlen
      exact (hv.left predictive_importElement.2.1 ht (by rw [hk]; rfl)).right
        predictive_importElement ht (by rw [hk]; rfl)
  · next hk =>
      have hv := (importWildcard.map ImportElement.wildcard).sound end? ts hend hlen
      exact (hv.right predictive_importElement.2.1 ht (by rw [hk]; rfl)).right
        predictive_importElement ht (by rw [hk]; rfl)
  · next hstring hlbrace hmul =>
      refine Verdict.sound_refusal predictive_importElement ht ?_ (fun _ => rfl) _ _
      rw [first_importElement, decide_eq_false hstring, decide_eq_false hlbrace,
        decide_eq_false hmul]
      rfl

theorem importDirective :
    Recognizes n (Grammar.importDirective n) Phrase.importDirective := by
  have h := (marked (n := n) .kwImport (by decide) .importKeyword).map
    ImportDirective.mk |>.seq importElement (fun k => rfl)
    |>.seq (marked .semicolon (by decide) .directiveEnd) fun k => by cases k <;> rfl
  simpa only [Grammar.importDirective, Phrase.importDirective, map_eq_pure_bind,
    seq_eq_bind_map, bind_assoc, pure_bind] using h

end Recognizes

end SoliditySource
