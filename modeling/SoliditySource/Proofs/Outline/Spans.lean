import SoliditySource.Proofs.Outline.Basic
import SoliditySource.Proofs.Reparse.Tokens

/-! # Spans of outlines

An outline is exact when each node starts where its first part starts and ends where its last
part ends. Recorded from tokens that stand in order, the nodes of an exact outline span just
their tokens, so children lie behind each other and within their parent.
-/

namespace SoliditySource

/-! ## Nodes and children -/

/-- The modifiers that count, in source order. -/
def Modifiers.inOrder (kept : Modifiers) : List Token :=
  match kept.visibility, kept.stateMutability with
  | some v, some m => if v.position ≤ m.position then [v, m] else [m, v]
  | v, m => v.toList ++ m.toList

namespace Outline

/-- The nodes that a part of a node contributes to its children. -/
def nodes : Outline → List Outline
  | leaf (.modifiers kept) => kept.inOrder.map Token.outline
  | leaf _ => []
  | node span parts => [node span parts]

/-- The children of a node, in source order. -/
def children : Outline → List Outline
  | leaf _ => []
  | node _ parts => parts.flatMap nodes

def span : Outline → Span
  | leaf _ => .unknown
  | node span _ => span

/-- A node of an outline: the outline itself, or a node of one of its children. -/
inductive Contains (o : Outline) : Outline → Prop where
  | self : Contains o o
  | child {p c : Outline} (h : Contains o p) (hc : c ∈ p.children) : Contains o c

end Outline

/-! ## Exact outlines -/

/-- Where the token of a leaf starts. -/
def Leaf.first? : Leaf → Option Position
  | mark _ position => some position
  | token t => some t.position
  | literal l => some l.span.first
  | modifiers _ => none

/-- Where the token of a leaf ends. A mark tells it only if its token has one rune. -/
def Leaf.last? : Leaf → Option Position
  | mark kind position => if Runes.isCloser kind then some position else none
  | token t => some t.last
  | literal l => some l.span.last
  | modifiers _ => none

namespace Outline

def first? : Outline → Option Position
  | leaf l => l.first?
  | node span _ => some span.first

def last? : Outline → Option Position
  | leaf l => l.last?
  | node span _ => some span.last

/-- The nodes start with their first parts and end with their last ones. -/
inductive Exact : Outline → Prop where
  | leaf (l : Leaf) : Exact (leaf l)
  | node {span : Span} {parts : List Outline} (hfirst : parts.head?.bind first? = some span.first)
      (hlast : parts.getLast?.bind last? = some span.last) (hparts : ∀ p ∈ parts, Exact p) :
      Exact (node span parts)

end Outline

/-! ## Tokens in order -/

/-- Tokens that stand in order, with closing marks of one rune. -/
structure WellPlaced (ts : List Token) : Prop where
  ordered : ts.Pairwise fun t u => t.last < u.position
  known : ∀ t ∈ ts, t.position.isKnown = true
  closer : ∀ t ∈ ts, Runes.isCloser t.kind = true → t.last = t.position

variable {us vs ts : List Token}

theorem WellPlaced.part (h : WellPlaced ts) (hu : us <:+: ts) : WellPlaced us where
  ordered := h.ordered.sublist hu.sublist
  known t ht := h.known t (hu.subset ht)
  closer t ht := h.closer t (hu.subset ht)

theorem WellPlaced.lt_of_append (h : WellPlaced (us ++ vs)) :
    ∀ t ∈ us, ∀ u ∈ vs, t.last < u.position :=
  (List.pairwise_append.mp h.ordered).2.2

theorem WellPlaced.first_le (h : WellPlaced ts) {first : Token} (hfirst : ts.head? = some first) :
    ∀ t ∈ ts, first.position ≤ t.position := by
  obtain ⟨rest, rfl⟩ := List.head?_eq_some_iff.mp hfirst
  intro t ht
  rcases List.mem_cons.mp ht with rfl | ht
  · exact Position.le_refl _
  · have hlt := (List.pairwise_cons.mp h.ordered).1 t ht
    exact Position.le_trans first.position_le_last (Position.le_of_lt hlt)

theorem WellPlaced.le_last (h : WellPlaced ts) {last : Token} (hlast : ts.getLast? = some last) :
    ∀ t ∈ ts, t.last ≤ last.last := by
  obtain ⟨front, rfl⟩ := List.getLast?_eq_some_iff.mp hlast
  intro t ht
  rcases List.mem_append.mp ht with ht | ht
  · have hlt := h.lt_of_append t ht last List.mem_cons_self
    exact Position.le_trans (Position.le_of_lt hlt) last.position_le_last
  · obtain rfl := List.mem_singleton.mp ht
    exact Position.le_refl _

/-- Of two tokens, the one that starts first ends before the other one starts. -/
theorem WellPlaced.lt_of_le (h : WellPlaced ts) {t u : Token} (ht : t ∈ ts) (hu : u ∈ ts)
    (hne : t ≠ u) (hle : t.position ≤ u.position) : t.last < u.position := by
  obtain ⟨front, back, rfl⟩ := List.append_of_mem ht
  rcases List.mem_append.mp hu with hu | hu
  · have hlt := h.lt_of_append u hu t List.mem_cons_self
    exact absurd (Position.le_trans hle u.position_le_last) (Position.not_le_of_lt hlt)
  · have hback := h.part (List.suffix_append front (t :: back)).isInfix
    exact (List.pairwise_cons.mp hback.ordered).1 u ((List.mem_cons.mp hu).resolve_left hne.symm)

/-- The span goes from the first of the tokens to the last one. -/
def Token.Cover (ts : List Token) (span : Span) : Prop :=
  ∃ t u, ts.head? = some t ∧ ts.getLast? = some u ∧ span = ⟨t.position, u.last⟩

namespace Outline

/-- An exact part starts and ends with the tokens that it is recorded from. -/
theorem Exact.ends {o : Outline} (h : o.Exact) (hrecorded : Recorded o.leaves us)
    (hplaced : WellPlaced us) :
    (∀ p, o.first? = some p → ∃ t, us.head? = some t ∧ t.position = p) ∧
      ∀ p, o.last? = some p → ∃ t, us.getLast? = some t ∧ t.last = p := by
  induction h generalizing us with
  | leaf l =>
      rw [leaves_leaf, recorded_cons] at hrecorded
      obtain ⟨us, vs, rfl, hl, hvs⟩ := hrecorded
      rw [recorded_nil] at hvs
      subst hvs
      rw [List.append_nil] at hplaced ⊢
      cases l with
      | mark kind position =>
          obtain ⟨text, rfl⟩ := hl
          refine ⟨fun p hp => ⟨_, rfl, Option.some.inj hp⟩, fun p hp => ⟨_, rfl, ?_⟩⟩
          rw [last?, Leaf.last?] at hp
          split at hp
          · next hcloser =>
              cases hp
              exact hplaced.closer _ List.mem_cons_self hcloser
          · cases hp
      | token t =>
          subst hl
          exact ⟨fun p hp => ⟨_, rfl, Option.some.inj hp⟩, fun p hp => ⟨_, rfl, Option.some.inj hp⟩⟩
      | literal l =>
          obtain ⟨t, rfl, rfl⟩ := hl
          exact ⟨fun p hp => ⟨_, rfl, Option.some.inj hp⟩, fun p hp => ⟨_, rfl, Option.some.inj hp⟩⟩
      | modifiers kept => simp [first?, last?, Leaf.first?, Leaf.last?]
  | @node span parts hfirst hlast _ ih =>
      rw [leaves_node] at hrecorded
      constructor
      · intro p hp
        obtain ⟨part, hpart, hpos⟩ := Option.bind_eq_some_iff.mp (hfirst.trans hp)
        obtain ⟨rest, rfl⟩ := List.head?_eq_some_iff.mp hpart
        rw [List.flatMap_cons, recorded_append] at hrecorded
        obtain ⟨us, vs, rfl, hus, -⟩ := hrecorded
        have hplaced' := hplaced.part (List.infix_append' [] us vs)
        obtain ⟨t, ht, hposition⟩ := (ih part List.mem_cons_self hus hplaced').1 p hpos
        exact ⟨t, by rw [List.head?_append, ht]; rfl, hposition⟩
      · intro p hp
        obtain ⟨part, hpart, hpos⟩ := Option.bind_eq_some_iff.mp (hlast.trans hp)
        obtain ⟨rest, rfl⟩ := List.getLast?_eq_some_iff.mp hpart
        rw [List.flatMap_append, List.flatMap_singleton, recorded_append] at hrecorded
        obtain ⟨us, vs, rfl, -, hvs⟩ := hrecorded
        have hplaced' := hplaced.part (List.suffix_append us vs).isInfix
        obtain ⟨t, ht, hposition⟩ := (ih part (by simp) hvs hplaced').2 p hpos
        exact ⟨t, by rw [List.getLast?_append, ht]; rfl, hposition⟩

end Outline

/-! ## Children -/

namespace Modifiers

variable {kept : Modifiers}

theorem mem_of_visibility (h : Leaf.Records (.modifiers kept) ts) {t : Token}
    (ht : kept.visibility = some t) : t ∈ ts ∧ t.kind.isVisibility = true := by
  rw [h.2.1] at ht
  exact List.mem_filter.mp (List.mem_of_getLast? ht)

theorem mem_of_stateMutability (h : Leaf.Records (.modifiers kept) ts) {t : Token}
    (ht : kept.stateMutability = some t) : t ∈ ts ∧ t.kind.isStateMutability = true := by
  rw [h.2.2] at ht
  exact List.mem_filter.mp (List.mem_of_getLast? ht)

theorem mem_inOrder {t : Token} :
    t ∈ kept.inOrder ↔ kept.visibility = some t ∨ kept.stateMutability = some t := by
  obtain ⟨visibility, stateMutability⟩ := kept
  cases visibility with
  | none => simp [inOrder]
  | some v =>
      cases stateMutability with
      | none => simp [inOrder, eq_comm]
      | some m => by_cases h : v.position ≤ m.position <;> simp [inOrder, h, eq_comm, or_comm]

theorem mem_of_records (h : Leaf.Records (.modifiers kept) ts) {t : Token}
    (ht : t ∈ kept.inOrder) : t ∈ ts :=
  (mem_inOrder.mp ht).elim (fun ht => (mem_of_visibility h ht).1)
    fun ht => (mem_of_stateMutability h ht).1

theorem pairwise_inOrder (h : Leaf.Records (.modifiers kept) ts) (hplaced : WellPlaced ts) :
    kept.inOrder.Pairwise fun t u => t.last < u.position := by
  unfold inOrder
  split
  · next v m hv hm =>
      obtain ⟨hv, hvkind⟩ := mem_of_visibility h hv
      obtain ⟨hm, hmkind⟩ := mem_of_stateMutability h hm
      have hne : v ≠ m := by
        rintro rfl
        rw [TokenKind.isStateMutability_of_isVisibility hvkind] at hmkind
        cases hmkind
      split
      · next hle => simpa using hplaced.lt_of_le hv hm hne hle
      · next hle => simpa using hplaced.lt_of_le hm hv hne.symm (Position.le_of_not_le hle)
  · next hnone =>
      cases hv : kept.visibility with
      | none => cases kept.stateMutability <;> simp
      | some v =>
          cases hm : kept.stateMutability with
          | none => simp
          | some m => exact absurd hm (hnone v m hv)

end Modifiers

namespace Outline

def IsNode : Outline → Prop
  | leaf _ => False
  | node _ _ => True

theorem Exact.cover {o : Outline} (h : o.Exact) (ho : o.IsNode) (hrecorded : Recorded o.leaves us)
    (hplaced : WellPlaced us) : Token.Cover us o.span := by
  cases o with
  | leaf l => cases ho
  | node span parts =>
      obtain ⟨hfirst, hlast⟩ := h.ends hrecorded hplaced
      obtain ⟨t, ht, hposition⟩ := hfirst _ rfl
      obtain ⟨u, hu, hend⟩ := hlast _ rfl
      exact ⟨t, u, ht, hu, by rw [hposition, hend]; rfl⟩

theorem recorded_leaf {l : Leaf} : Recorded (leaf l).leaves us ↔ l.Records us := by
  simp [recorded_cons]

@[simp] theorem exact_leaf (l : Leaf) : (leaf l).Exact := .leaf l

@[simp] theorem exact_token (t : Token) : t.outline.Exact := .node rfl rfl (by simp)

/-- A node of a part is recorded from some of the tokens of the part. -/
theorem recorded_of_mem_nodes {p c : Outline} (h : p.Exact) (hrecorded : Recorded p.leaves us)
    (hc : c ∈ p.nodes) : c.Exact ∧ c.IsNode ∧ ∃ vs, vs <:+: us ∧ Recorded c.leaves vs := by
  cases p with
  | leaf l =>
      cases l with
      | modifiers kept =>
          obtain ⟨t, ht, rfl⟩ := List.mem_map.mp hc
          rw [recorded_leaf] at hrecorded
          obtain ⟨front, back, rfl⟩ := List.append_of_mem (Modifiers.mem_of_records hrecorded ht)
          refine ⟨exact_token t, trivial, [t], ?_, by simp⟩
          simpa using List.infix_append' front [t] back
      | _ => cases hc
  | node span parts =>
      obtain rfl := List.mem_singleton.mp hc
      exact ⟨h, trivial, us, List.infix_rfl, hrecorded⟩

theorem recorded_of_mem {parts : List Outline} {p : Outline}
    (h : Recorded (parts.flatMap leaves) us) (hp : p ∈ parts) :
    ∃ vs, vs <:+: us ∧ Recorded p.leaves vs := by
  obtain ⟨front, back, rfl⟩ := List.append_of_mem hp
  rw [List.flatMap_append, List.flatMap_cons, recorded_append] at h
  obtain ⟨us, vs, rfl, -, h⟩ := h
  obtain ⟨vs, ws, rfl, hvs, -⟩ := recorded_append.mp h
  exact ⟨vs, List.infix_append' us vs ws, hvs⟩

/-- The nodes of exact parts are recorded from some of the tokens of the parts. -/
theorem recorded_of_mem_flatMap {parts : List Outline} {c : Outline}
    (hparts : ∀ p ∈ parts, p.Exact) (h : Recorded (parts.flatMap leaves) us)
    (hc : c ∈ parts.flatMap nodes) :
    c.Exact ∧ c.IsNode ∧ ∃ vs, vs <:+: us ∧ Recorded c.leaves vs := by
  obtain ⟨p, hp, hc⟩ := List.mem_flatMap.mp hc
  obtain ⟨vs, hvs, hrecorded⟩ := recorded_of_mem h hp
  obtain ⟨hexact, hnode, ws, hws, hrecorded⟩ := recorded_of_mem_nodes (hparts p hp) hrecorded hc
  exact ⟨hexact, hnode, ws, hws.trans hvs, hrecorded⟩

/-- An exact node starts and ends with tokens that it is recorded from. -/
theorem Exact.between {c : Outline} (h : c.Exact) (hnode : c.IsNode)
    (hrecorded : Recorded c.leaves vs) (hvs : vs <:+: us) (hplaced : WellPlaced us) :
    ∃ t ∈ us, ∃ u ∈ us, c.span = ⟨t.position, u.last⟩ := by
  obtain ⟨t, u, ht, hu, hspan⟩ := h.cover hnode hrecorded (hplaced.part hvs)
  exact ⟨t, hvs.subset (List.mem_of_head? ht), u, hvs.subset (List.mem_of_getLast? hu), hspan⟩

theorem pairwise_nodes {p : Outline} (hrecorded : Recorded p.leaves us)
    (hplaced : WellPlaced us) : p.nodes.Pairwise fun c d => c.span.last < d.span.first := by
  cases p with
  | leaf l =>
      cases l with
      | modifiers kept =>
          rw [recorded_leaf] at hrecorded
          exact List.pairwise_map.mpr (Modifiers.pairwise_inOrder hrecorded hplaced)
      | _ => exact .nil
  | node span parts => exact List.pairwise_singleton _ _

/-- The nodes of parts in a row lie one behind the other. -/
theorem pairwise_flatMap_nodes {parts : List Outline} (hparts : ∀ p ∈ parts, p.Exact)
    (h : Recorded (parts.flatMap leaves) us) (hplaced : WellPlaced us) :
    (parts.flatMap nodes).Pairwise fun c d => c.span.last < d.span.first := by
  induction parts generalizing us with
  | nil => exact .nil
  | cons p parts ih =>
      obtain ⟨hp, hparts⟩ := List.forall_mem_cons.mp hparts
      rw [List.flatMap_cons, recorded_append] at h
      obtain ⟨us, vs, rfl, hus, hvs⟩ := h
      have hfront := hplaced.part (List.infix_append' [] us vs)
      have hback := hplaced.part (List.suffix_append us vs).isInfix
      rw [List.flatMap_cons]
      refine List.pairwise_append.mpr ⟨pairwise_nodes hus hfront, ih hparts hvs hback, ?_⟩
      intro c hc d hd
      obtain ⟨hcexact, hcnode, _, hcs, hcrecorded⟩ := recorded_of_mem_nodes hp hus hc
      obtain ⟨hdexact, hdnode, _, hds, hdrecorded⟩ := recorded_of_mem_flatMap hparts hvs hd
      obtain ⟨_, _, u, hu, hcspan⟩ := hcexact.between hcnode hcrecorded hcs hfront
      obtain ⟨t, ht, _, _, hdspan⟩ := hdexact.between hdnode hdrecorded hds hback
      rw [hcspan, hdspan]
      exact hplaced.lt_of_append u hu t ht

/-- What is in an exact node is exact and recorded from some of its tokens. -/
theorem Contains.recorded {o c : Outline} (h : o.Contains c) (ho : o.Exact) (hnode : o.IsNode)
    (hrecorded : Recorded o.leaves us) :
    c.Exact ∧ c.IsNode ∧ ∃ vs, vs <:+: us ∧ Recorded c.leaves vs := by
  induction h with
  | self => exact ⟨ho, hnode, us, List.infix_rfl, hrecorded⟩
  | @child p c _ hc ih =>
      obtain ⟨hp, -, vs, hvs, hrecorded⟩ := ih
      cases hp with
      | leaf l => cases hc
      | node _ _ hparts =>
          rw [leaves_node] at hrecorded
          obtain ⟨hexact, hnode, ws, hws, hrecorded⟩ := recorded_of_mem_flatMap hparts hrecorded hc
          exact ⟨hexact, hnode, ws, hws.trans hvs, hrecorded⟩

/-- The children of an exact node lie one behind the other and within the node. -/
theorem Exact.children {o : Outline} (h : o.Exact) (hnode : o.IsNode)
    (hrecorded : Recorded o.leaves us) (hplaced : WellPlaced us) :
    o.children.Pairwise (fun c d => c.span.last < d.span.first) ∧
      ∀ c ∈ o.children, o.span.first ≤ c.span.first ∧ c.span.last ≤ o.span.last := by
  obtain ⟨first, last, hfirst, hlast, hspan⟩ := h.cover hnode hrecorded hplaced
  cases h with
  | leaf l => cases hnode
  | node _ _ hparts =>
      rw [leaves_node] at hrecorded
      refine ⟨pairwise_flatMap_nodes hparts hrecorded hplaced, fun c hc => ?_⟩
      obtain ⟨hexact, hcnode, vs, hvs, hcrecorded⟩ := recorded_of_mem_flatMap hparts hrecorded hc
      obtain ⟨t, ht, u, hu, hcspan⟩ := hexact.between hcnode hcrecorded hvs hplaced
      rw [hspan, hcspan]
      exact ⟨hplaced.first_le hfirst t ht, hplaced.le_last hlast u hu⟩

end Outline

end SoliditySource
