import SoliditySource.Tree.Contract

/-! # Outlines

The outline of a tree is the same for all types of trees: nodes with their spans, and at the
leaves what the tree stores of tokens, in source order. A tree does not store all of a token,
nor all tokens; `Recorded` says which tokens the leaves of an outline stand for.
-/

namespace SoliditySource

/-- Something that a tree stores in the place of tokens. -/
inductive Leaf where
  /-- The position of a token, in a field that stands for tokens of one kind. -/
  | mark (kind : TokenKind) (position : Position)
  /-- A token as it is. -/
  | token (t : Token)
  /-- The kind, the span and the text of a quoted literal. -/
  | literal (l : StringLiteral)
  /-- The last modifier of each sort. -/
  | modifiers (kept : Modifiers)

namespace TokenKind

theorem isStateMutability_of_isVisibility {kind : TokenKind} (h : kind.isVisibility = true) :
    kind.isStateMutability = false := by
  unfold isVisibility at h
  split at h <;> first | rfl | cases h

theorem isVisibility_of_isStateMutability {kind : TokenKind}
    (h : kind.isStateMutability = true) : kind.isVisibility = false := by
  unfold isStateMutability at h
  split at h <;> first | rfl | cases h

end TokenKind

/-- The leaf is what is stored of the tokens. -/
def Leaf.Records : Leaf → List Token → Prop
  | mark kind position, ts => ∃ text, ts = [⟨kind, text, position⟩]
  | token t, ts => ts = [t]
  | literal l, ts => ∃ t, ts = [t] ∧ l = ⟨t.kind, t.span, t.text⟩
  | modifiers kept, ts =>
      (∀ t ∈ ts, t.kind.isVisibility = true ∨ t.kind.isStateMutability = true) ∧
        kept.visibility = (ts.filter fun t => t.kind.isVisibility).getLast? ∧
        kept.stateMutability = (ts.filter fun t => t.kind.isStateMutability).getLast?

/-- The leaves are what is stored of the tokens, each leaf of its own part of them and all in
the order of the tokens. -/
inductive Recorded : List Leaf → List Token → Prop where
  | nil : Recorded [] []
  | cons {l : Leaf} {ls : List Leaf} {us ts : List Token} (h : l.Records us)
      (hs : Recorded ls ts) : Recorded (l :: ls) (us ++ ts)

/-- The spans and the leaves of a tree. -/
inductive Outline where
  | leaf (l : Leaf)
  | node (span : Span) (parts : List Outline)

namespace Outline

/-- The leaves in order. -/
def leaves : Outline → List Leaf
  | leaf l => [l]
  | node _ parts => parts.flatMap leaves

@[simp] theorem leaves_leaf (l : Leaf) : (leaf l).leaves = [l] := by rw [leaves]

@[simp] theorem leaves_node (span : Span) (parts : List Outline) :
    (node span parts).leaves = parts.flatMap leaves := by rw [leaves]

/-- The outline of a field that stands for tokens of one kind. -/
def mark (kind : TokenKind) (position : Position) : Outline := leaf (.mark kind position)

@[simp] theorem leaves_mark (kind : TokenKind) (position : Position) :
    (mark kind position).leaves = [.mark kind position] := leaves_leaf _

/-- The outlines of a list whose entries keep the separators right after them. -/
def separated {α : Type} (separator : TokenKind) (parts : α → List Outline)
    (entries : List (Separated α)) : List Outline :=
  entries.flatMap fun entry => parts entry.item ++ (entry.separator.map (mark separator)).toList

/-- The outlines of a list that is stored apart from its separators. -/
def interleave (separator : TokenKind) : List Outline → List Position → List Outline
  | [], positions => positions.map (mark separator)
  | item :: items, [] => item :: items
  | item :: items, position :: positions =>
      item :: mark separator position :: interleave separator items positions

end Outline

/-- A token is a node by itself. -/
def Token.outline (t : Token) : Outline := .node t.span [.leaf (.token t)]

@[simp] theorem Token.leaves_outline (t : Token) : t.outline.leaves = [.token t] := by
  simp [outline]

/-! ## Lists -/

/-- Each entry of a list but the last one has a separator after it. -/
def Separated.Joined {α : Type} (entries : List (Separated α)) : Prop :=
  ∃ front last, entries = front ++ [last] ∧ (∀ entry ∈ front, entry.separator.isSome = true) ∧
    last.separator = none

namespace Separated

variable {α : Type}

theorem joined_singleton (a : α) : Joined [⟨a, none⟩] :=
  ⟨[], _, rfl, by simp, rfl⟩

theorem Joined.cons {a : α} {position : Position} {entries : List (Separated α)}
    (h : Joined entries) : Joined (⟨a, some position⟩ :: entries) := by
  obtain ⟨front, last, rfl, hfront, hlast⟩ := h
  exact ⟨_ :: front, last, rfl, by simpa using hfront, hlast⟩

/-- A list that is stored apart from its separators has one separator less than items. -/
theorem Joined.length_separators {entries : List (Separated α)} (h : Joined entries) :
    (separators entries).length + 1 = (items entries).length := by
  obtain ⟨front, last, rfl, hfront, hlast⟩ := h
  induction front with
  | nil => simp [separators, items, hlast]
  | cons entry front ih =>
      obtain ⟨hentry, hfront⟩ := List.forall_mem_cons.mp hfront
      obtain ⟨position, hposition⟩ := Option.isSome_iff_exists.mp hentry
      simpa [separators, items, hposition] using ih hfront

/-- Both ways to store a list have the same outline. -/
theorem Joined.interleave_eq {entries : List (Separated α)} (h : Joined entries)
    (separator : TokenKind) (outline : α → Outline) :
    Outline.interleave separator ((items entries).map outline) (separators entries) =
      Outline.separated separator (fun a => [outline a]) entries := by
  obtain ⟨front, last, rfl, hfront, hlast⟩ := h
  induction front with
  | nil => simp [separators, items, hlast, Outline.interleave, Outline.separated]
  | cons entry front ih =>
      obtain ⟨hentry, hfront⟩ := List.forall_mem_cons.mp hfront
      obtain ⟨position, hposition⟩ := Option.isSome_iff_exists.mp hentry
      simpa [separators, items, hposition, Outline.interleave, Outline.separated] using ih hfront

end Separated

/-! ## Tokens that are recorded -/

section Recording

variable {ls ms : List Leaf} {t : Token} {us vs ts : List Token}

@[simp] theorem recorded_nil : Recorded [] ts ↔ ts = [] := by
  constructor
  · intro h
    cases h
    rfl
  · rintro rfl
    exact .nil

theorem recorded_cons {l : Leaf} :
    Recorded (l :: ls) ts ↔ ∃ us vs, ts = us ++ vs ∧ l.Records us ∧ Recorded ls vs := by
  constructor
  · intro h
    cases h with
    | cons h hs => exact ⟨_, _, rfl, h, hs⟩
  · rintro ⟨us, vs, rfl, h, hs⟩
    exact .cons h hs

@[simp] theorem recorded_mark_cons {kind : TokenKind} {position : Position} :
    Recorded (.mark kind position :: ls) (t :: ts) ↔
      (t.kind = kind ∧ t.position = position) ∧ Recorded ls ts := by
  obtain ⟨kind', text, position'⟩ := t
  simp only [recorded_cons, Leaf.Records]
  constructor
  · rintro ⟨us, vs, h, ⟨text', rfl⟩, hs⟩
    cases h
    exact ⟨⟨rfl, rfl⟩, hs⟩
  · rintro ⟨⟨rfl, rfl⟩, hs⟩
    exact ⟨_, ts, rfl, ⟨text, rfl⟩, hs⟩

@[simp] theorem recorded_token_cons {u : Token} :
    Recorded (.token u :: ls) (t :: ts) ↔ t = u ∧ Recorded ls ts := by
  simp only [recorded_cons, Leaf.Records]
  constructor
  · rintro ⟨us, vs, h, rfl, hs⟩
    cases h
    exact ⟨rfl, hs⟩
  · rintro ⟨rfl, hs⟩
    exact ⟨_, ts, rfl, rfl, hs⟩

/-- Tokens that are stored as they are. -/
theorem recorded_tokens (ts : List Token) :
    Recorded ((ts.map Token.outline).flatMap Outline.leaves) ts := by
  induction ts with
  | nil => exact .nil
  | cons t ts ih => simpa using ih

theorem Recorded.append (h : Recorded ls us) (h' : Recorded ms vs) :
    Recorded (ls ++ ms) (us ++ vs) := by
  induction h with
  | nil => exact h'
  | cons h _ ih =>
      rw [List.append_assoc]
      exact .cons h ih

theorem recorded_append :
    Recorded (ls ++ ms) ts ↔ ∃ us vs, ts = us ++ vs ∧ Recorded ls us ∧ Recorded ms vs := by
  constructor
  · intro h
    induction ls generalizing ts with
    | nil => exact ⟨[], ts, rfl, .nil, h⟩
    | cons l ls ih =>
        cases h with
        | cons h hs =>
            obtain ⟨us, vs, rfl, hls, hms⟩ := ih hs
            exact ⟨_, vs, (List.append_assoc _ _ _).symm, .cons h hls, hms⟩
  · rintro ⟨us, vs, rfl, h, h'⟩
    exact h.append h'

end Recording

end SoliditySource
