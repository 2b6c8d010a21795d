import SoliditySource.Proofs.Phrase.Recognize

/-! # Lists of phrases

Items with separators between them, items up to a closing token, and items as long as
there are any. Each is a repetition, and each unfolds into one item and the list after it,
which is the way the rules read them.
-/

namespace SoliditySource

namespace Phrase

variable {α β : Type}

/-! ## Unfolding a repetition -/

theorem repeated_iff {p : Phrase α} {ts : List Token} {as : List α} :
    (many p).Spells ts as ↔
      (ts = [] ∧ as = []) ∨ ∃ us vs a bs, ts = us ++ vs ∧ p.Spells us a ∧
        (many p).Spells vs bs ∧ as = a :: bs := by
  constructor
  · intro h
    change Repeated p.Spells ts as at h
    cases h with
    | nil => exact .inl ⟨rfl, rfl⟩
    | cons h hs => exact .inr ⟨_, _, _, _, rfl, h, hs, rfl⟩
  · rintro (⟨rfl, rfl⟩ | ⟨us, vs, a, bs, rfl, ha, hbs, rfl⟩)
    · exact Repeated.nil
    · exact Repeated.cons ha hbs

/-- A repetition read from left to right: `f` puts an item in front of the others. -/
theorem map_many_unfold (p : Phrase α) (f : List α → β) :
    Equivalent (either ((fun a as => f (a :: as)) <$> p <*> many p) (empty (f []))) (f <$> many p) := by
  intro ts b
  constructor
  · rintro (⟨us, vs, _, as, rfl, ⟨a, ha, rfl⟩, has, rfl⟩ | ⟨rfl, rfl⟩)
    · exact ⟨a :: as, .cons ha has, rfl⟩
    · exact ⟨[], .nil, rfl⟩
  · rintro ⟨as, has, rfl⟩
    rcases repeated_iff.mp has with ⟨rfl, rfl⟩ | ⟨us, vs, a, bs, rfl, ha, hbs, rfl⟩
    · exact .inr ⟨rfl, rfl⟩
    · exact .inl ⟨us, vs, _, bs, rfl, ⟨a, ha, rfl⟩, hbs, rfl⟩

theorem predictive_many {p : Phrase α} (h : p.Predictive) (hn : p.nullable = false)
    (hdis : ∀ k, (p.more k && p.first k) = false) : (many p).Predictive := ⟨h, hn, hdis⟩

/-! ## Items with separators -/

/-- The entries of a list, from the first item and the separators and items after it. -/
def entries (a : α) : List (Position × α) → List (Separated α)
  | [] => [⟨a, none⟩]
  | (p, b) :: rest => ⟨a, some p⟩ :: entries b rest

/-- The entries of a list, from the first item, the separator after it and the other
entries. -/
def entriesAfter (a : α) : Option (Position × List (Separated α)) → List (Separated α)
  | none => [⟨a, none⟩]
  | some (p, rest) => ⟨a, some p⟩ :: rest

/-- Items with separators between them, at least one item. -/
def separated (separator : TokenKind) (p : Phrase α) : Phrase (List (Separated α)) :=
  entries <$> p <*> many (Prod.mk <$> mark separator <*> p)

/-- One item, and then perhaps a separator and such a list again. -/
def separatedAgain (separator : TokenKind) (p : Phrase α) : Phrase (List (Separated α)) :=
  entriesAfter <$> p <*> optional (Prod.mk <$> mark separator <*> separated separator p)

theorem separated_unfold (separator : TokenKind) (p : Phrase α) :
    Equivalent (separatedAgain separator p) (separated separator p) := by
  intro ts l
  constructor
  · rintro ⟨us, vs, _, o, rfl, ⟨a, ha, rfl⟩, ho, rfl⟩
    refine ⟨us, vs, entries a, ?_⟩
    rcases ho with ⟨⟨m, rest⟩, ⟨xs, ys, _, rest', rfl, ⟨m', hm, rfl⟩, hrest, hpair⟩, rfl⟩ | ⟨rfl, rfl⟩
    · cases hpair
      obtain ⟨zs, ws, _, bs, rfl, ⟨b, hb, rfl⟩, hbs, rfl⟩ := hrest
      refine ⟨(m, b) :: bs, rfl, ⟨a, ha, rfl⟩, ?_, rfl⟩
      rw [← List.append_assoc]
      exact Repeated.cons ⟨xs, zs, _, b, rfl, ⟨m, hm, rfl⟩, hb, rfl⟩ hbs
    · exact ⟨[], rfl, ⟨a, ha, rfl⟩, .nil, rfl⟩
  · rintro ⟨us, vs, _, bs, rfl, ⟨a, ha, rfl⟩, hbs, rfl⟩
    rcases repeated_iff.mp hbs with ⟨rfl, rfl⟩ | ⟨xs, ys, ⟨m, b⟩, cs, rfl, hmb, hcs, rfl⟩
    · exact ⟨us, [], entriesAfter a, none, rfl, ⟨a, ha, rfl⟩, .inr ⟨rfl, rfl⟩, rfl⟩
    · obtain ⟨zs, ws, _, b', rfl, ⟨m', hm, rfl⟩, hb, hpair⟩ := hmb
      cases hpair
      refine ⟨us, _, entriesAfter a, some (m, entries b cs), rfl, ⟨a, ha, rfl⟩, .inl ?_, rfl⟩
      refine ⟨(m, entries b cs), ?_, rfl⟩
      refine ⟨zs, ws ++ ys, _, entries b cs, List.append_assoc _ _ _, ⟨m, hm, rfl⟩, ?_, rfl⟩
      exact ⟨ws, ys, _, cs, rfl, ⟨b, hb, rfl⟩, hcs, rfl⟩

theorem predictive_mark {kind : TokenKind} (hk : kind ≠ .eos) : (mark kind).Predictive :=
  Recognizes.predictive_token hk

theorem more_and_eq {p : Phrase α} {kind : TokenKind} (h : p.more kind = false) (k : TokenKind) :
    (p.more k && decide (k = kind)) = false := by
  by_cases hk : k = kind
  · rw [hk, h]
    rfl
  · rw [decide_eq_false hk, Bool.and_false]

theorem predictive_separated {separator : TokenKind} {p : Phrase α} (h : p.Predictive)
    (hs : separator ≠ .eos) (hmore : p.more separator = false) :
    (separated separator p).Predictive := by
  have hdis := more_and_eq hmore
  refine ⟨h, ⟨⟨predictive_mark hs, h, fun k => rfl⟩, rfl, fun k => ?_⟩, fun k => ?_⟩
  · show ((Prod.mk <$> mark separator <*> p).more k &&
      (Prod.mk <$> mark separator <*> p).first k) = false
    simpa using hdis k
  · show ((entries <$> p).more k && (many (Prod.mk <$> mark separator <*> p)).first k) = false
    simpa using hdis k

/-! ## Items up to a closing token -/

/-- Items up to a token of the given kind, and this token. -/
def upTo (kind : TokenKind) (p : Phrase α) : Phrase (List α × Token) :=
  Prod.mk <$> many p <*> token (· = kind)

/-- The closing token, or one item and such a list again. -/
def upToAgain (kind : TokenKind) (p : Phrase α) : Phrase (List α × Token) :=
  either (Prod.mk [] <$> token (· = kind))
    ((fun a rest => (a :: rest.1, rest.2)) <$> p <*> upTo kind p)

theorem upTo_unfold (kind : TokenKind) (p : Phrase α) :
    Equivalent (upToAgain kind p) (upTo kind p) := by
  intro ts b
  constructor
  · rintro (⟨t, ht, rfl⟩ | ⟨us, vs, _, rest, rfl, ⟨a, ha, rfl⟩, hrest, rfl⟩)
    · exact ⟨[], ts, _, t, rfl, ⟨[], .nil, rfl⟩, ht, rfl⟩
    · obtain ⟨xs, ys, _, t, rfl, ⟨as, has, rfl⟩, ht, rfl⟩ := hrest
      exact ⟨us ++ xs, ys, _, t, (List.append_assoc _ _ _).symm, ⟨a :: as, .cons ha has, rfl⟩, ht,
        rfl⟩
  · rintro ⟨us, vs, _, t, rfl, ⟨as, has, rfl⟩, ht, rfl⟩
    rcases repeated_iff.mp has with ⟨rfl, rfl⟩ | ⟨xs, ys, a, bs, rfl, ha, hbs, rfl⟩
    · exact .inl ⟨t, ht, rfl⟩
    · refine .inr ⟨xs, ys ++ vs, _, (bs, t), List.append_assoc _ _ _, ⟨a, ha, rfl⟩, ?_, rfl⟩
      exact ⟨ys, vs, _, t, rfl, ⟨bs, hbs, rfl⟩, ht, rfl⟩

end Phrase

open Phrase

namespace Recognizes

variable {α : Type} {n : Nat}

theorem accept?_bind (kind : TokenKind) (rule : Token → Rule α) :
    (Rule.accept? kind >>= fun
      | none => Pure.pure none
      | some t => some <$> rule t) = Rule.whenNext kind (Rule.next >>= rule) := by
  rw [Rule.accept?, Rule.whenNext, bind_assoc]
  congr 1
  funext t
  by_cases h : t.kind = kind
  · rw [if_pos h, if_pos h, map_eq_pure_bind, bind_assoc, map_bind]
    rfl
  · rw [if_neg h, if_neg h, pure_bind]

/-- A list with separators is recognized when its items are. -/
theorem separatedBy (separator : TokenKind) {item : Rule α} {p : Phrase α}
    (h : Recognizes n item p) (hs : separator ≠ .eos) (hmore : p.more separator = false)
    {turns : Nat} (hle : turns ≤ n) :
    Recognizes turns (Rule.separatedBy separator item turns) (separated separator p) := by
  have hpred := predictive_separated h.predictive hs hmore
  induction turns with
  | zero => exact zero _ hpred
  | succ turns ih =>
      have hagain := ih (Nat.le_of_succ_le hle)
      have hpair : (Phrase.seq (Prod.mk <$> mark separator) (separated separator p)).Predictive :=
        ⟨predictive_mark hs, hpred, fun k => rfl⟩
      -- the separator and the list after it
      have htail : Recognizes (turns + 1)
          (Rule.whenNext separator (Rule.next >>= fun t =>
            (fun rest => (t.position, rest)) <$> Rule.separatedBy separator item turns))
          (optional (Prod.mk <$> mark separator <*> separated separator p)) := by
        refine whenNext _ hpair (fun k => by simp) rfl ?_
        intro end? ts t hend hlen ht hkind
        have hk : t.kind ≠ .eos := by rw [hkind]; exact hs
        have htake := Verdict.sound_take (· = separator) (by simpa using hs.symm) hend ht
          (by simpa using hkind)
        have hts := Verdict.eq_cons_tail hend ht hk
        rw [Rule.follow_next_bind, ht]
        have hlen' : ts.tail.length < turns := by
          rw [hts, List.length_cons] at hlen
          omega
        exact (htake.map Token.position).bind hpair (w := fun _ rest => _) fun p rest hv => by
          cases hv
          exact (hagain.map (Prod.mk t.position)).sound end? ts.tail hend hlen'
      have hseq := ((h.mono hle).map entriesAfter).seq htail fun k => by
        simpa using more_and_eq hmore k
      have hrule : Rule.separatedBy separator item (turns + 1) =
          entriesAfter <$> item <*> Rule.whenNext separator (Rule.next >>= fun t =>
            (fun rest => (t.position, rest)) <$> Rule.separatedBy separator item turns) := by
        rw [← accept?_bind, Rule.separatedBy, seq_eq_bind_map, map_eq_pure_bind, bind_assoc]
        congr 1
        funext a
        rw [pure_bind, map_bind]
        congr 1
        funext o
        cases o with
        | none => rfl
        | some t => simp only [map_eq_pure_bind, bind_assoc, pure_bind]; rfl
      rw [hrule]
      exact hseq.congr (separated_unfold separator p) hpred

end Recognizes

end SoliditySource
