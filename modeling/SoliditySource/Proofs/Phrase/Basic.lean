import Mathlib.Computability.Language
import SoliditySource.Token.Basic

/-! # Phrases

A phrase says which runs of tokens make up a construct, and which tree each of them
stands for. Only the kinds of the tokens decide whether they are a phrase; the tree takes
over texts and positions.
-/

namespace SoliditySource

/-- What makes up a construct whose trees have type `α`. -/
inductive Phrase : Type → Type 1 where
  /-- No tokens at all. -/
  | empty {α : Type} (value : α) : Phrase α
  /-- One token of a kind that fits. -/
  | token (fits : TokenKind → Bool) : Phrase Token
  | map {α β : Type} (f : α → β) (p : Phrase α) : Phrase β
  | seq {α β : Type} (p : Phrase (α → β)) (q : Phrase α) : Phrase β
  | either {α : Type} (p q : Phrase α) : Phrase α
  | many {α : Type} (p : Phrase α) : Phrase (List α)

/-- Any number of runs in a row. -/
inductive Repeated {α : Type} (spells : List Token → α → Prop) : List Token → List α → Prop where
  | nil : Repeated spells [] []
  | cons {us vs : List Token} {a : α} {as : List α} (h : spells us a)
      (hs : Repeated spells vs as) : Repeated spells (us ++ vs) (a :: as)

theorem Repeated.append {α : Type} {spells : List Token → α → Prop} {us vs : List Token}
    {as bs : List α} (h : Repeated spells us as) (h' : Repeated spells vs bs) :
    Repeated spells (us ++ vs) (as ++ bs) := by
  induction h with
  | nil => exact h'
  | cons h _ ih =>
      rw [List.append_assoc]
      exact .cons h ih

namespace Phrase

variable {α β : Type}

instance : Functor Phrase where
  map := map

instance : Seq Phrase where
  seq p q := p.seq (q ())

/-- The tokens are a phrase that stands for the tree. -/
def Spells : {α : Type} → Phrase α → List Token → α → Prop
  | _, empty value, ts, a => ts = [] ∧ a = value
  | _, token fits, ts, t => ts = [t] ∧ fits t.kind = true
  | _, map f p, ts, b => ∃ a, p.Spells ts a ∧ b = f a
  | _, seq p q, ts, b =>
      ∃ us vs f a, ts = us ++ vs ∧ p.Spells us f ∧ q.Spells vs a ∧ b = f a
  | _, either p q, ts, a => p.Spells ts a ∨ q.Spells ts a
  | _, many p, ts, as => Repeated p.Spells ts as

/-- The tokens are the beginning of a phrase. -/
def Viable (p : Phrase α) (ts : List Token) : Prop := ∃ more a, p.Spells (ts ++ more) a

/-- The sequences of kinds of its phrases. -/
def language : {α : Type} → Phrase α → Language TokenKind
  | _, empty _ => 1
  | _, token fits => {w | ∃ k, fits k = true ∧ w = [k]}
  | _, map _ p => p.language
  | _, seq p q => p.language * q.language
  | _, either p q => p.language + q.language
  | _, many p => KStar.kstar p.language

theorem Spells.viable {p : Phrase α} {ts : List Token} {a : α} (h : p.Spells ts a) :
    p.Viable ts := ⟨[], a, by rwa [List.append_nil]⟩

theorem Viable.front {p : Phrase α} {us vs : List Token} (h : p.Viable (us ++ vs)) :
    p.Viable us := by
  obtain ⟨more, a, ha⟩ := h
  exact ⟨vs ++ more, a, by rwa [← List.append_assoc]⟩

/-- A run of tokens is a phrase when its kinds are. -/
theorem exists_spells_iff (p : Phrase α) (ts : List Token) :
    (∃ a, p.Spells ts a) ↔ ts.map Token.kind ∈ p.language := by
  induction p generalizing ts with
  | empty value =>
      simp only [Spells, language, Language.mem_one, List.map_eq_nil_iff]
      exact ⟨fun ⟨_, h, _⟩ => h, fun h => ⟨value, h, rfl⟩⟩
  | token fits =>
      constructor
      · rintro ⟨t, rfl, hf⟩
        exact ⟨t.kind, hf, rfl⟩
      · rintro ⟨k, hk, hw⟩
        obtain ⟨t, rfl, rfl⟩ := List.map_eq_singleton_iff.mp hw
        exact ⟨t, rfl, hk⟩
  | map f p ih =>
      rw [language, ← ih ts]
      constructor
      · rintro ⟨_, a, ha, -⟩
        exact ⟨a, ha⟩
      · rintro ⟨a, ha⟩
        exact ⟨f a, a, ha, rfl⟩
  | seq p q ihp ihq =>
      rw [language, Language.mem_mul]
      constructor
      · rintro ⟨_, us, vs, f, a, rfl, hp, hq, -⟩
        exact ⟨_, (ihp us).mp ⟨f, hp⟩, _, (ihq vs).mp ⟨a, hq⟩, by rw [List.map_append]⟩
      · rintro ⟨us', hus, vs', hvs, he⟩
        obtain ⟨us, vs, rfl, rfl, rfl⟩ := List.map_eq_append_iff.mp he.symm
        obtain ⟨f, hp⟩ := (ihp us).mpr hus
        obtain ⟨a, hq⟩ := (ihq vs).mpr hvs
        exact ⟨f a, us, vs, f, a, rfl, hp, hq, rfl⟩
  | either p q ihp ihq =>
      rw [language, Language.mem_add, ← ihp ts, ← ihq ts]
      constructor
      · rintro ⟨a, ha | ha⟩
        · exact .inl ⟨a, ha⟩
        · exact .inr ⟨a, ha⟩
      · rintro (⟨a, ha⟩ | ⟨a, ha⟩)
        · exact ⟨a, .inl ha⟩
        · exact ⟨a, .inr ha⟩
  | many p ih =>
      rw [language, Language.mem_kstar]
      constructor
      · rintro ⟨as, has⟩
        change Repeated p.Spells ts as at has
        induction has with
        | nil => exact ⟨[], rfl, fun w hw => absurd hw List.not_mem_nil⟩
        | @cons us vs a as h _ ihs =>
            obtain ⟨ws, hw, hall⟩ := ihs
            refine ⟨us.map Token.kind :: ws, ?_, ?_⟩
            · rw [List.map_append, hw, List.flatten_cons]
            · intro w hw'
              rcases List.mem_cons.mp hw' with rfl | hw'
              · exact (ih us).mp ⟨a, h⟩
              · exact hall w hw'
      · rintro ⟨ws, hw, hall⟩
        induction ws generalizing ts with
        | nil =>
            rw [List.flatten_nil, List.map_eq_nil_iff] at hw
            subst hw
            exact ⟨[], .nil⟩
        | cons w ws ihs =>
            rw [List.flatten_cons] at hw
            obtain ⟨us, vs, rfl, rfl, hvs⟩ := List.map_eq_append_iff.mp hw
            obtain ⟨a, ha⟩ := (ih us).mpr (hall _ List.mem_cons_self)
            obtain ⟨as, has⟩ := ihs vs hvs fun w' hw' => hall w' (List.mem_cons_of_mem _ hw')
            exact ⟨a :: as, .cons ha has⟩

/-- A run of tokens is the beginning of a phrase when its kinds are. -/
theorem viable_iff (p : Phrase α) (ts : List Token) :
    p.Viable ts ↔ ∃ w, ts.map Token.kind ++ w ∈ p.language := by
  constructor
  · rintro ⟨more, a, h⟩
    have hl := (exists_spells_iff p _).mp ⟨a, h⟩
    rw [List.map_append] at hl
    exact ⟨_, hl⟩
  · rintro ⟨w, hw⟩
    have hkinds : (w.map fun k => (⟨k, [], .start⟩ : Token)).map Token.kind = w := by
      rw [List.map_map]
      exact List.map_id' w
    rw [← hkinds, ← List.map_append, ← exists_spells_iff] at hw
    obtain ⟨a, ha⟩ := hw
    exact ⟨_, a, ha⟩

end Phrase

end SoliditySource
