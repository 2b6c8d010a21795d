import SoliditySource.Proofs.Grammar.Contract

/-! # Source units are recognized

A source unit is read construct by construct: the next token tells which one comes, its rule
gives a tree, and the tree takes the slot of its sort. That is one turn (`constructs_succ`), and
it is the same for all sorts.

A source unit is read up to the end of the source. So a source unit is refused for what
stands behind a phrase as well, and the verdicts are sound in the weaker sense only.
-/

namespace SoliditySource

/-- The construct that a token of the kind starts. -/
def TokenKind.construct? : TokenKind → Option Construct
  | .kwPragma => some .pragmaDirective
  | .kwImport => some .importDirective
  | .kwAbstract | .kwContract => some .contractDefinition
  | .kwFunction => some .functionDefinition
  | _ => none

theorem TokenKind.ne_eos_of_construct? {k : TokenKind} {c : Construct}
    (h : k.construct? = some c) : k ≠ .eos := by
  rintro rfl
  cases h

namespace TopLevel

def construct : TopLevel → Construct
  | pragma _ => .pragmaDirective
  | imports _ => .importDirective
  | contract _ => .contractDefinition
  | function _ => .functionDefinition

def span : TopLevel → Span
  | pragma directive => directive.span
  | imports directive => directive.span
  | contract definition => definition.span
  | function definition => definition.span

end TopLevel

namespace Construct

def Tree : Construct → Type
  | pragmaDirective => PragmaDirective
  | importDirective => ImportDirective
  | contractDefinition => ContractDefinition
  | functionDefinition => FunctionDefinition

def production : (c : Construct) → Production c.Tree
  | pragmaDirective => .pragmaDirective
  | importDirective => .importDirective
  | contractDefinition => .contractDefinition
  | functionDefinition => .functionDefinition

def wrap : (c : Construct) → c.Tree → TopLevel
  | pragmaDirective => .pragma
  | importDirective => .imports
  | contractDefinition => .contract
  | functionDefinition => .function

/-- The rule of a construct, for a tree whose sort is not known beforehand. -/
def rule (c : Construct) (limit : Nat) : Rule TopLevel := c.wrap <$> c.production.rule limit

@[simp] theorem construct_wrap (c : Construct) (tree : c.Tree) :
    (c.wrap tree).construct = c := by
  cases c <;> rfl

end Construct

/-! ## Slots -/

namespace SourceUnit

/-- What the unit holds of a sort. -/
def slot (unit : SourceUnit) : Construct → Option TopLevel
  | .pragmaDirective => unit.pragma.map .pragma
  | .importDirective => unit.imports.map .imports
  | .contractDefinition => unit.contract.map .contract
  | .functionDefinition => unit.function.map .function

@[simp] theorem slot_empty (c : Construct) : empty.slot c = none := by
  cases c <;> rfl

theorem slot_store (unit : SourceUnit) (item : TopLevel) (c : Construct) :
    (item.store unit).slot c = if item.construct = c then some item else unit.slot c := by
  cases item <;> cases c <;> rfl

/-- Stored one after the other, the last item of a sort is kept. -/
theorem slot_foldl_store (items : List TopLevel) (c : Construct) :
    (items.foldl TopLevel.store empty).slot c =
      (items.filter (·.construct = c)).getLast? := by
  induction items using List.reverseRecOn with
  | nil => simp
  | append_singleton items item ih =>
      rw [List.foldl_append, List.foldl_cons, List.foldl_nil, slot_store, ih, List.filter_append]
      split
      · next h => simp [h]
      · next h => simp [h]

end SourceUnit

/-! ## A turn -/

namespace Grammar

open Rule

theorem constructs_succ (limit count : Nat) (unit : SourceUnit) :
    constructs limit (count + 1) unit = (do
      let t ← peek
      log (.dispatch t.kind t.position)
      match t.kind.construct? with
      | some c =>
          let item ← c.rule limit
          logParsed item.construct item.span ((unit.slot c).map TopLevel.span)
          constructs limit count (item.store unit)
      | none => if t.kind = .eos then pure unit else refuseAt t .invalidToken) := by
  rw [constructs]
  congr
  funext t
  congr
  funext _
  have hrule : ∀ (c : Construct) (f : TopLevel → Rule SourceUnit),
      c.rule limit >>= f = c.production.rule limit >>= fun tree => f (c.wrap tree) :=
    fun c f => bind_map_left c.wrap (c.production.rule limit) f
  have hslot : ∀ {α : Type} (slot : Option α) (wrap : α → TopLevel),
      (slot.map wrap).map TopLevel.span = slot.map fun a => (wrap a).span :=
    fun slot wrap => Option.map_map TopLevel.span wrap slot
  split
  case h_1 h => rw [h]; rfl
  case h_7 he hpragma himport habstract hcontract hfunction =>
    have hnone : t.kind.construct? = none := by
      unfold TokenKind.construct?
      split <;> first | contradiction | rfl
    rw [hnone, if_neg he]
  all_goals
    next h =>
      rw [h]
      dsimp only [TokenKind.construct?]
      rw [hrule, SourceUnit.slot, hslot]
      rfl

end Grammar

/-! ## Soundness of a turn -/

open Phrase

theorem predictive_topLevel : topLevel.Predictive :=
  ⟨(Recognizes.pragmaDirective (n := 0)).predictive,
    ⟨(Recognizes.importDirective (n := 0)).predictive,
      ⟨(Recognizes.contractDefinition (n := 0)).predictive,
        (Recognizes.functionDefinition (n := 0)).predictive, rfl,
        fun k => by cases k <;> rfl⟩,
      rfl, fun k => by cases k <;> rfl⟩,
    rfl, fun k => by cases k <;> rfl⟩

theorem predictive_constructs : (many topLevel).Predictive :=
  predictive_many predictive_topLevel rfl fun _ => rfl

theorem first_topLevel (k : TokenKind) : topLevel.first k = k.construct?.isSome := by
  cases k <;> rfl

namespace Construct

theorem first_of_construct? {k : TokenKind} {c : Construct} (h : k.construct? = some c) :
    c.production.phrase.first k = true := by
  cases k <;> cases h <;> rfl

/-- The verdict of the rule that the next token selects is sound for all constructs. -/
theorem sound {c : Construct} {n : Nat} {end? : Option Token} {ts : List Token} {t : Token}
    (hend : IsEnd end?) (hlen : ts.length < n) (ht : ts.head?.or end? = some t)
    (hc : t.kind.construct? = some c) : ((c.rule n).follow end? ts).Sound end? topLevel ts := by
  cases c with
  | pragmaDirective =>
      have hf : Phrase.pragmaDirective.first t.kind = true := first_of_construct? hc
      have hv := (Recognizes.pragmaDirective.map TopLevel.pragma).sound end? ts hend hlen
      exact hv.left predictive_topLevel ht hf
  | importDirective =>
      have hf : Phrase.importDirective.first t.kind = true := first_of_construct? hc
      have hv := (Recognizes.importDirective.map TopLevel.imports).sound end? ts hend hlen
      have hv := hv.left predictive_topLevel.2.1 ht hf
      exact hv.right predictive_topLevel ht (by simp [hf])
  | contractDefinition =>
      have hf : Phrase.contractDefinition.first t.kind = true := first_of_construct? hc
      have hv := (Recognizes.contractDefinition.map TopLevel.contract).sound end? ts hend hlen
      have hv := hv.left predictive_topLevel.2.1.2.1 ht hf
      have hv := hv.right predictive_topLevel.2.1 ht (by simp [hf])
      exact hv.right predictive_topLevel ht (by simp [hf])
  | functionDefinition =>
      have hf : Phrase.functionDefinition.first t.kind = true := first_of_construct? hc
      have hv := (Recognizes.functionDefinition.map TopLevel.function).sound end? ts hend hlen
      have hv := hv.right predictive_topLevel.2.1.2.1 ht hf
      have hv := hv.right predictive_topLevel.2.1 ht (by simp [hf])
      exact hv.right predictive_topLevel ht (by simp [hf])

end Construct

theorem Rule.follow_logParsed_bind {α : Type} (end? : Option Token) (construct : Construct)
    (span : Span) (earlier : Option Span) (f : Unit → Rule α) (ts : List Token) :
    (Grammar.logParsed construct span earlier >>= f).follow end? ts = (f ()).follow end? ts := by
  cases earlier <;> rfl

/-- One construct, and the constructs after it. -/
theorem Verdict.sound_construct {n turns : Nat} {end? : Option Token} {ts : List Token} {t : Token}
    {rule : Rule TopLevel} {unit : SourceUnit} (earlier : Option Span)
    (hlen : ts.length < turns + 1) (ht : ts.head?.or end? = some t)
    (hf : topLevel.first t.kind = true) (hv : (rule.follow end? ts).Sound end? topLevel ts)
    (hrest : ∀ unit rest, rest.length < turns →
      ((Grammar.constructs n turns unit).follow end? rest).SoundUpTo (· = []) end?
        (constructsAfter unit) rest) :
    (Rule.follow end? (do
      let item ← rule
      Grammar.logParsed item.construct item.span earlier
      Grammar.constructs n turns (item.store unit)) ts).SoundUpTo (· = []) end?
        (constructsAfter unit) ts := by
  have hagain : (either ((fun item items => (item :: items).foldl TopLevel.store unit) <$>
      topLevel <*> many topLevel) (empty unit)).Predictive :=
    ⟨⟨predictive_topLevel, predictive_constructs, fun k => rfl⟩, trivial, rfl,
      fun k => Bool.and_false _⟩
  have hx := hv.bind hagain.1 (w := fun item rest =>
    (Grammar.constructs n turns (item.store unit)).follow end? rest) fun item rest hvalue => by
      rw [hvalue] at hv
      have hlt := hv.length_lt rfl
      exact hrest (item.store unit) rest (by omega)
  have hx := (hx.left hagain ht ((first_seq_of _ _ _ rfl).trans hf)).congr
    (map_many_unfold topLevel _)
  rw [Rule.follow_bind]
  simp only [Rule.follow_logParsed_bind]
  exact hx

theorem Grammar.sound_constructs {n turns : Nat} (hle : turns ≤ n) (unit : SourceUnit)
    (end? : Option Token) (ts : List Token) (hend : IsEnd end?) (hlen : ts.length < turns) :
    ((constructs n turns unit).follow end? ts).SoundUpTo (· = []) end?
      (constructsAfter unit) ts := by
  induction turns generalizing unit ts with
  | zero => exact absurd hlen (Nat.not_lt_zero _)
  | succ turns ih =>
      have hlimit := Nat.lt_of_lt_of_le hlen hle
      have hpred : (constructsAfter unit).Predictive := predictive_constructs
      rw [constructs_succ, Rule.follow_peek_bind]
      cases ht : ts.head?.or end? with
      | none => exact Verdict.sound_starved hpred ht
      | some t =>
          dsimp only
          rw [Rule.follow_log_bind]
          have hfirst := first_topLevel t.kind
          cases hc : t.kind.construct? with
          | some c =>
              rw [hc] at hfirst
              exact Verdict.sound_construct _ hlen ht hfirst (Construct.sound hend hlimit ht hc)
                (ih (Nat.le_of_succ_le hle))
          | none =>
              rw [hc] at hfirst
              dsimp only
              split
              · exact Verdict.sound_stay hpred ht hfirst ⟨[], .nil, rfl⟩
              · next hk =>
                  refine Verdict.sound_refusal hpred ht hfirst (fun hnil => ?_) _ _
                  have hcons := Verdict.eq_cons_tail hend ht hk
                  rw [hnil] at hcons
                  cases hcons

/-- Constructs are read until the end of the source is next. -/
theorem Grammar.eos_of_constructs {n turns : Nat} (hle : turns ≤ n)
    {unit result : SourceUnit} {end? : Option Token} {ts rest : List Token} (hend : IsEnd end?)
    (hlen : ts.length < turns)
    (h : (constructs n turns unit).follow end? ts = .value result rest) :
    ∃ t, rest.head?.or end? = some t ∧ t.kind = .eos := by
  induction turns generalizing unit ts with
  | zero => exact absurd hlen (Nat.not_lt_zero _)
  | succ turns ih =>
      have hlimit := Nat.lt_of_lt_of_le hlen hle
      rw [constructs_succ, Rule.follow_peek_bind] at h
      cases ht : ts.head?.or end? with
      | none => rw [ht] at h; cases h
      | some t =>
          rw [ht] at h
          dsimp only at h
          rw [Rule.follow_log_bind] at h
          cases hc : t.kind.construct? with
          | none =>
              rw [hc] at h
              dsimp only at h
              split at h
              · next hk =>
                  cases h
                  exact ⟨t, ht, hk⟩
              · cases h
          | some c =>
              rw [hc] at h
              dsimp only at h
              rw [Rule.follow_bind] at h
              have hv := Construct.sound hend hlimit ht hc
              cases hr : (c.rule n).follow end? ts with
              | value item between =>
                  rw [hr] at h hv
                  have hlt := hv.length_lt rfl
                  dsimp only [Verdict.bind] at h
                  rw [Rule.follow_logParsed_bind] at h
                  exact ih (Nat.le_of_succ_le hle) (by omega) h
              | refusal fault between => rw [hr] at h; cases h
              | starved => rw [hr] at h; cases h

/-! ## Productions -/

theorem Verdict.SoundUpTo.weaken {α : Type} {stop stop' : List Token → Prop} {end? : Option Token}
    {p : Phrase α} {ts : List Token} {v : Verdict α} (h : v.SoundUpTo stop end? p ts)
    (hle : ∀ back, stop' back → stop back) : v.SoundUpTo stop' end? p ts := by
  cases v with
  | value a rest => exact h
  | refusal fault rest =>
      obtain ⟨used, back, t, he, ht, hpos, hviable, hn, hs⟩ := h
      exact ⟨used, back, t, he, ht, hpos, hviable, hn, fun hstop => hs (hle back hstop)⟩
  | starved => exact h

/-- A rule that recognizes phrases breaks off before a whole phrase only. -/
theorem Recognizes.soundUpTo {α : Type} {n : Nat} {rule : Rule α} {p : Phrase α}
    (h : Recognizes n rule p) {stop : List Token → Prop} {end? : Option Token}
    {ts : List Token} (hend : IsEnd end?) (hlen : ts.length < n) :
    (rule.follow end? ts).SoundUpTo stop end? p ts :=
  (h.sound end? ts hend hlen).weaken fun _ _ => trivial

namespace Production

theorem predictive {α : Type} (production : Production α) : production.phrase.Predictive := by
  cases production with
  | sourceUnit => exact predictive_constructs
  | pragmaDirective => exact (Recognizes.pragmaDirective (n := 0)).predictive
  | importDirective => exact (Recognizes.importDirective (n := 0)).predictive
  | importPath => exact (Recognizes.importPath (n := 0)).predictive
  | importSymbols => exact (Recognizes.importSymbols (n := 0)).predictive
  | importWildcard => exact (Recognizes.importWildcard (n := 0)).predictive
  | path => exact (Recognizes.path (n := 0)).predictive
  | symbolAliases => exact (Recognizes.symbolAliases (n := 0)).predictive
  | symbolAlias => exact (Recognizes.symbolAlias (n := 0)).predictive
  | identifier => exact (Recognizes.identifier (n := 0)).predictive
  | identifierPath => exact (Recognizes.identifierPath (n := 0)).predictive
  | contractDefinition => exact (Recognizes.contractDefinition (n := 0)).predictive
  | inheritanceSpecifier => exact (Recognizes.inheritanceSpecifier (n := 0)).predictive
  | functionDefinition => exact (Recognizes.functionDefinition (n := 0)).predictive
  | visibility => exact (Recognizes.visibility (n := 0)).predictive
  | stateMutability => exact (Recognizes.stateMutability (n := 0)).predictive
  | typeName => exact (Recognizes.typeName (n := 0)).predictive
  | elementaryTypeName => exact (Recognizes.elementaryTypeName (n := 0)).predictive
  | parameterList => exact (Recognizes.parameterList (n := 0)).predictive
  | parameter => exact (Recognizes.parameter (n := 0)).predictive
  | block => exact (Recognizes.block (n := 0)).predictive
  | statement => exact (Recognizes.statement (n := 0)).predictive
  | returnStatement => exact (Recognizes.returnStatement (n := 0)).predictive
  | expression => exact (Recognizes.expression (n := 0)).predictive
  | literal => exact (Recognizes.literal (n := 0)).predictive
  | callArgumentList => exact (Recognizes.callArgumentList (n := 0)).predictive

/-- Every production is sound for its phrases; only a source unit also breaks off behind a
whole phrase. -/
theorem sound {α : Type} (production : Production α) {n : Nat} {end? : Option Token}
    {ts : List Token} (hend : IsEnd end?) (hlen : ts.length < n) :
    ((production.rule n).follow end? ts).SoundUpTo (· = []) end? production.phrase ts := by
  cases production with
  | sourceUnit => exact Grammar.sound_constructs (Nat.le_refl n) .empty end? ts hend hlen
  | pragmaDirective => exact Recognizes.pragmaDirective.soundUpTo hend hlen
  | importDirective => exact Recognizes.importDirective.soundUpTo hend hlen
  | importPath => exact Recognizes.importPath.soundUpTo hend hlen
  | importSymbols => exact Recognizes.importSymbols.soundUpTo hend hlen
  | importWildcard => exact Recognizes.importWildcard.soundUpTo hend hlen
  | path => exact Recognizes.path.soundUpTo hend hlen
  | symbolAliases => exact Recognizes.symbolAliases.soundUpTo hend hlen
  | symbolAlias => exact Recognizes.symbolAlias.soundUpTo hend hlen
  | identifier => exact Recognizes.identifier.soundUpTo hend hlen
  | identifierPath => exact Recognizes.identifierPath.soundUpTo hend hlen
  | contractDefinition => exact Recognizes.contractDefinition.soundUpTo hend hlen
  | inheritanceSpecifier => exact Recognizes.inheritanceSpecifier.soundUpTo hend hlen
  | functionDefinition => exact Recognizes.functionDefinition.soundUpTo hend hlen
  | visibility => exact Recognizes.visibility.soundUpTo hend hlen
  | stateMutability => exact Recognizes.stateMutability.soundUpTo hend hlen
  | typeName => exact Recognizes.typeName.soundUpTo hend hlen
  | elementaryTypeName => exact Recognizes.elementaryTypeName.soundUpTo hend hlen
  | parameterList => exact Recognizes.parameterList.soundUpTo hend hlen
  | parameter => exact Recognizes.parameter.soundUpTo hend hlen
  | block => exact Recognizes.block.soundUpTo hend hlen
  | statement => exact Recognizes.statement.soundUpTo hend hlen
  | returnStatement => exact Recognizes.returnStatement.soundUpTo hend hlen
  | expression => exact Recognizes.expression.soundUpTo hend hlen
  | literal => exact Recognizes.literal.soundUpTo hend hlen
  | callArgumentList => exact Recognizes.callArgumentList.soundUpTo hend hlen

end Production

end SoliditySource
