import SoliditySource.Proofs.Grammar.Directive
import SoliditySource.Proofs.Grammar.Function

/-! # Contracts are recognized -/

namespace SoliditySource

open Phrase

namespace Recognizes

variable {n : Nat}

theorem inheritanceSpecifier :
    Recognizes n (Grammar.inheritanceSpecifier n) Phrase.inheritanceSpecifier := by
  have harguments : Recognizes n (Rule.whenNext .lparen (Grammar.callArgumentList n))
      (optional Phrase.callArgumentList) :=
    whenNext _ (callArgumentList (n := n)).predictive (fun k => by cases k <;> rfl) rfl
      fun end? ts _ hend hlen _ _ => callArgumentList.sound end? ts hend hlen
  have h := ((identifierPath (n := n)).map InheritanceSpecifier.mk).seq harguments
    fun k => by cases k <;> rfl
  simpa only [Grammar.inheritanceSpecifier, Phrase.inheritanceSpecifier, map_eq_pure_bind,
    seq_eq_bind_map, bind_assoc, pure_bind] using h

theorem inheritance : Recognizes n (Grammar.inheritance n) Phrase.inheritance := by
  have hlist := separatedBy .comma (inheritanceSpecifier (n := n))
    (by decide) rfl (Nat.le_refl n)
  have h := ((marked (n := n) .kwIs (by decide) .isKeyword).map
    fun keyword l => Inheritance.mk keyword (Separated.items l) (Separated.separators l)).seq
    hlist fun k => rfl
  simpa only [Grammar.inheritance, Phrase.inheritance, map_eq_pure_bind, seq_eq_bind_map,
    bind_assoc, pure_bind] using h

theorem contractMember :
    Recognizes n (ContractMember.function <$> Grammar.functionDefinition n)
      Phrase.contractMember :=
  functionDefinition.map ContractMember.function

theorem first_contractMember (k : TokenKind) :
    Phrase.contractMember.first k = decide (k = .kwFunction) := by
  cases k <;> rfl

theorem contractBody {turns : Nat} (hle : turns ≤ n) :
    Recognizes turns (Grammar.contractBody n turns) (upTo .rbrace Phrase.contractMember) := by
  have hmember := (contractMember (n := n)).predictive
  have hpred : (upTo .rbrace Phrase.contractMember).Predictive :=
    ⟨⟨hmember, rfl, fun k => rfl⟩, predictive_token (by decide), fun k => by cases k <;> rfl⟩
  have hagain : (upToAgain .rbrace Phrase.contractMember).Predictive :=
    ⟨predictive_token (by decide), ⟨hmember, hpred, fun k => rfl⟩, rfl,
      fun k => by cases k <;> rfl⟩
  induction turns with
  | zero => exact zero _ hpred
  | succ turns ih =>
      have hrest := ih (Nat.le_of_succ_le hle)
      rw [Grammar.contractBody]
      refine peek hpred fun end? ts t hend hlen ht => ?_
      have hmore : ∀ {v : Verdict (List ContractMember × Token)},
          v.Sound end? (upToAgain .rbrace Phrase.contractMember) ts →
          v.Sound end? (upTo .rbrace Phrase.contractMember) ts := fun hv =>
        hv.congr (upTo_unfold .rbrace Phrase.contractMember)
      split
      · next hk =>
          have htake := Verdict.sound_take (· = .rbrace) rfl hend ht (by simpa using hk)
          rw [Rule.follow_next_bind, ht]
          exact hmore ((htake.map (Prod.mk [])).left hagain ht (by rw [hk]; rfl))
      · next hk =>
          have hv := contractMember.sound end? ts hend (Nat.lt_of_lt_of_le hlen hle)
          have hx := hv.bind hagain.2.1 (w := fun m rest =>
            ((fun r => (m :: r.1, r.2)) <$> Grammar.contractBody n turns).follow end? rest)
            fun m rest hvalue => by
              rw [hvalue] at hv
              have hlt := hv.length_lt rfl
              exact (hrest.map fun r => (m :: r.1, r.2)).sound end? rest hend (by omega)
          have hx := hmore (hx.right hagain ht (by rw [hk]; rfl))
          rw [← Rule.follow_bind] at hx
          simpa only [map_eq_pure_bind, bind_assoc, pure_bind] using hx
      · next hk =>
          exact hmore (Verdict.sound_refusal hagain ht (by rw [hk]; rfl) (fun _ => rfl) _ _)
      · next hrbrace hfunction _ =>
          refine hmore (Verdict.sound_refusal hagain ht ?_ (fun _ => rfl) _ _)
          rw [upToAgain, first_either, first_map, first_token, first_seq_of _ _ _ rfl, first_map,
            first_contractMember, decide_eq_false hrbrace, decide_eq_false hfunction]
          rfl

theorem contractDefinition :
    Recognizes n (Grammar.contractDefinition n) Phrase.contractDefinition := by
  have hinheritance : Recognizes n (Rule.whenNext .kwIs (Grammar.inheritance n))
      (optional Phrase.inheritance) :=
    whenNext _ (inheritance (n := n)).predictive (fun k => by cases k <;> rfl) rfl
      fun end? ts _ hend hlen _ _ => inheritance.sound end? ts hend hlen
  have h := ((accept? (n := n) .kwAbstract (by decide)).map
    fun abstractKeyword keyword name inheritance lbrace (body : List ContractMember × Token) =>
      ContractDefinition.mk (abstractKeyword.map Token.position) keyword name inheritance lbrace
        body.1 body.2.position).seq
      (marked .kwContract (by decide) .contractKeyword) (fun k => by cases k <;> rfl)
    |>.seq identifier (fun k => rfl)
    |>.seq hinheritance (fun k => by cases k <;> rfl)
    |>.seq (marked .lbrace (by decide) .bodyStart) (fun k => by cases k <;> rfl)
    |>.seq (contractBody (Nat.le_refl n)) fun k => by cases k <;> rfl
  simpa only [Grammar.contractDefinition, Phrase.contractDefinition, map_eq_pure_bind,
    seq_eq_bind_map, bind_assoc, pure_bind] using h

end Recognizes

end SoliditySource
