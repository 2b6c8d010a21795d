import SoliditySource.Token.Literal

/-! # Byte pairs

The body of a `hex` literal is empty, or it is made of pairs of digits of which two in a row may
have one underscore between them. The groups between the underscores are valid just then: two
digits in front of a body make its first group longer by a pair, and an underscore behind them
starts another group.
-/

namespace SoliditySource.HexBody

/-- Pairs of digits, at least one, with single underscores between some of them. -/
inductive Pairs : List Char → Prop where
  | last {a b : Char} (ha : Rune.isHexDigit a = true) (hb : Rune.isHexDigit b = true) :
      Pairs [a, b]
  | pair {a b : Char} {rest : List Char} (ha : Rune.isHexDigit a = true)
      (hb : Rune.isHexDigit b = true) (h : Pairs rest) : Pairs (a :: b :: rest)
  | spaced {a b : Char} {rest : List Char} (ha : Rune.isHexDigit a = true)
      (hb : Rune.isHexDigit b = true) (h : Pairs rest) : Pairs (a :: b :: '_' :: rest)

theorem not_isHexDigit_underscore : ¬ Rune.isHexDigit '_' = true := by decide

theorem pairs_cons_cons_iff {a b : Char} {rest : List Char} :
    Pairs (a :: b :: rest) ↔ Rune.isHexDigit a = true ∧ Rune.isHexDigit b = true ∧
      (rest = [] ∨ Pairs rest ∨ ∃ others, rest = '_' :: others ∧ Pairs others) := by
  constructor
  · intro h
    cases h with
    | last ha hb => exact ⟨ha, hb, .inl rfl⟩
    | pair ha hb h => exact ⟨ha, hb, .inr (.inl h)⟩
    | spaced ha hb h => exact ⟨ha, hb, .inr (.inr ⟨_, rfl, h⟩)⟩
  · rintro ⟨ha, hb, rfl | h | ⟨others, rfl, h⟩⟩
    · exact .last ha hb
    · exact .pair ha hb h
    · exact .spaced ha hb h

/-! ## Groups -/

theorem groups_cons {c : Char} (hc : c ≠ '_') (rest : List Char) :
    ∃ first others, groups rest = first :: others ∧
      groups (c :: rest) = (c :: first) :: others := by
  have hne : groups rest ≠ [] := by
    cases rest with
    | nil => exact List.cons_ne_nil _ _
    | cons d rest =>
        rw [groups]
        split
        · exact List.cons_ne_nil _ _
        · split <;> exact List.cons_ne_nil _ _
  obtain ⟨first, others, h⟩ := List.exists_cons_of_ne_nil hne
  refine ⟨first, others, h, ?_⟩
  rw [groups, if_neg hc, h]

theorem isGroup_pair {a b : Char} (group : List Char) :
    isGroup (a :: b :: group) = true ↔ Rune.isHexDigit a = true ∧ Rune.isHexDigit b = true ∧
      (group = [] ∨ isGroup group = true) := by
  have hlen : (a :: b :: group).length % 2 = group.length % 2 := by
    simp only [List.length_cons]
    omega
  rw [isGroup, isGroup, hlen]
  cases group with
  | nil => simp
  | cons c group => simp [and_left_comm]

/-- Two digits in front: they are the first group, or lengthen it, or an underscore behind them
ends it. -/
theorem all_isGroup_pair (a b : Char) (rest : List Char) :
    (groups (a :: b :: rest)).all isGroup = true ↔
      Rune.isHexDigit a = true ∧ Rune.isHexDigit b = true ∧
        (rest = [] ∨ (groups rest).all isGroup = true ∨
          ∃ others, rest = '_' :: others ∧ (groups others).all isGroup = true) := by
  by_cases ha : a = '_'
  · subst ha
    rw [groups, if_pos rfl]
    exact ⟨fun h => (Bool.false_ne_true h).elim,
      fun h => absurd h.1 not_isHexDigit_underscore⟩
  by_cases hb : b = '_'
  · subst hb
    rw [groups, if_neg ha, groups, if_pos rfl]
    exact ⟨fun h => by simp [isGroup] at h, fun h => absurd h.2.1 not_isHexDigit_underscore⟩
  obtain ⟨first, others, hrest, hone⟩ := groups_cons hb rest
  obtain ⟨_, _, htwo, hgroups⟩ := groups_cons ha (b :: rest)
  obtain ⟨rfl, rfl⟩ := List.cons.inj (htwo.symm.trans hone)
  rw [hgroups, List.all_cons, Bool.and_eq_true, isGroup_pair, and_assoc, and_assoc]
  refine and_congr_right fun _ => and_congr_right fun _ => ?_
  cases rest with
  | nil =>
      obtain ⟨rfl, rfl⟩ := List.cons.inj hrest
      simp
  | cons c rest =>
      by_cases hc : c = '_'
      · subst hc
        rw [groups, if_pos rfl] at hrest
        obtain ⟨rfl, rfl⟩ := List.cons.inj hrest
        simp [groups, isGroup]
      · obtain ⟨more, _, -, hmore⟩ := groups_cons hc rest
        obtain ⟨rfl, -⟩ := List.cons.inj (hmore.symm.trans hrest)
        simp [hrest, hc]

theorem all_isGroup_iff (body : List Char) :
    (groups body).all isGroup = true ↔ Pairs body := by
  induction hn : body.length using Nat.strongRecOn generalizing body with
  | _ n ih =>
      subst hn
      match body with
      | [] => exact ⟨fun h => (Bool.false_ne_true h).elim, fun h => nomatch h⟩
      | [a] =>
          refine ⟨fun h => ?_, fun h => nomatch h⟩
          by_cases ha : a = '_' <;> simp [groups, isGroup, ha] at h
      | a :: b :: rest =>
          have hlt : rest.length < (a :: b :: rest).length := by
            simp only [List.length_cons]
            omega
          rw [all_isGroup_pair, pairs_cons_cons_iff, ih _ hlt rest rfl]
          refine and_congr_right fun _ => and_congr_right fun _ => or_congr_right
            (or_congr_right (exists_congr fun others => and_congr_right fun hrest => ?_))
          have hothers : others.length < rest.length := by simp [hrest]
          exact ih _ (Nat.lt_trans hothers hlt) others rfl

/-- What may stand between the quotes of a `hex` literal. -/
theorem isValid_iff (body : List Char) : isValid body = true ↔ body = [] ∨ Pairs body := by
  rw [isValid, Bool.or_eq_true, List.isEmpty_iff, all_isGroup_iff]

end SoliditySource.HexBody
