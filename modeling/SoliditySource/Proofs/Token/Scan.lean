import SoliditySource.Proofs.Token.Runes

/-! # The tokens ahead

From every place on, a text holds some tokens and then either ends or cannot be read
further (`Place.Upcoming`). A token reader at that place hands out these tokens.
-/

namespace SoliditySource

/-! ## Kinds and texts -/

theorem SizedType.kind?_mem {text : List Char} {kind : TokenKind} (h : kind? text = some kind) :
    kind ∈ families.map fun family => family.2.2 := by
  obtain ⟨family, hm, hf⟩ := List.exists_of_findSome?_eq_some h
  obtain ⟨word, isSizeOf, kind'⟩ := family
  dsimp only at hf
  split at hf
  · split at hf
    · cases hf
      exact List.mem_map.mpr ⟨_, hm, rfl⟩
    · cases hf
  · cases hf

/-- A fixed spelling stands in the table once. -/
theorem TokenKind.classify_spelled :
    ∀ entry ∈ spellings, classify entry.1.toList = entry.2 := by
  have hlookup : ∀ entry ∈ spellings, lookup entry.1.toList = some entry.2 := by decide +kernel
  intro entry hentry
  rw [classify, hlookup entry hentry]

/-- A text is a fixed spelling if its kind is that of no sized type, number or identifier. -/
theorem TokenKind.spelled_of_classify {p : TokenKind → Bool} {text : List Char}
    (hother : ∀ kind ∈ [number, identifier] ++ SizedType.families.map fun family => family.2.2,
      ¬ p kind = true) (h : p (classify text) = true) :
    text ∈ (spellings.filter fun entry => p entry.2).map fun entry => entry.1.toList := by
  unfold classify at h
  split at h
  · next kind hlookup =>
      obtain ⟨entry, hentry, rfl⟩ := Option.map_eq_some_iff.mp hlookup
      have hmem : entry ∈ spellings.filter fun entry => p entry.2 :=
        List.mem_filter.mpr ⟨List.mem_of_find?_eq_some hentry, h⟩
      exact List.mem_map.mpr ⟨entry, hmem, by simpa using List.find?_some hentry⟩
  · split at h
    · next kind hkind =>
        exact absurd h (hother kind (List.mem_append_right _ (SizedType.kind?_mem hkind)))
    · split at h
      · exact absurd h (hother .number (by simp))
      · exact absurd h (hother .identifier (by simp))

/-- No text has a kind that no spelling has, nor a sized type, a number or an identifier. -/
theorem TokenKind.classify_ne {kind : TokenKind}
    (hother : kind ∉ [number, identifier] ++ SizedType.families.map fun family => family.2.2)
    (hspelled : kind ∉ spellings.map Prod.snd) (text : List Char) : classify text ≠ kind := by
  intro h
  have hp : ∀ other ∈ [number, identifier] ++ SizedType.families.map (fun family => family.2.2),
      ¬ decide (other = kind) = true := by
    intro other hmem heq
    exact hother (of_decide_eq_true heq ▸ hmem)
  have hmem := spelled_of_classify (p := fun other => other = kind) hp (decide_eq_true h)
  obtain ⟨entry, hentry, -⟩ := List.mem_map.mp hmem
  obtain ⟨hin, hkind⟩ := List.mem_filter.mp hentry
  exact hspelled (List.mem_map.mpr ⟨entry, hin, of_decide_eq_true hkind⟩)

namespace Runes

/-- The token in front of a text that does not start with a blank is a piece of the text
that is not empty, and no end token. -/
theorem token_cons {first : Char} {rest : List Char} {kind : TokenKind} {text : List Char}
    (h : token (first :: rest) = .ok (kind, text)) :
    text ≠ [] ∧ text <+: first :: rest ∧ kind ≠ .eos := by
  by_cases hq : Rune.isQuote first = true
  · rw [token, if_pos hq, plainLiteral] at h
    split at h
    · next body hb =>
        cases h
        refine ⟨List.cons_ne_nil _ _, (List.prefix_cons_inj first).mpr (isPrefix_closing hb), ?_⟩
        split <;> decide
    · cases h
  · by_cases hb : first = '\\'
    · rw [token, if_neg hq, if_pos hb] at h
      cases h
    · rw [token_of_word hq hb] at h
      obtain ⟨more, rfl, hmore, hkind⟩ := ofWord_eq_ok h
      refine ⟨by simp [lexeme_ne_nil], ?_, ?_⟩
      · have hprefix := (List.prefix_append_right_inj (lexeme (first :: rest))).mpr hmore
        rwa [lexeme_append_afterLexeme] at hprefix
      · rcases hkind with rfl | rfl | rfl
        · exact TokenKind.classify_ne (by decide) (by decide) _
        · decide
        · decide

end Runes

/-! ## Places -/

namespace Place

theorem length_solid (place : Place) : place.solid.runes.length ≤ place.runes.length :=
  (List.dropWhile_suffix _).length_le

/-- Reading the end token leads to the end of the text, where it is read again. -/
theorem read_eos {place next : Place} {t : Token} (h : place.read = .ok (t, next))
    (ht : t.isEos = true) : next.read = .ok (t, next) := by
  rw [read] at h
  cases hs : place.solid.runes with
  | nil =>
      rw [hs, Runes.token, locate] at h
      cases h
      have hnext : place.solid.past [] = place.solid := rfl
      rw [hnext, read, solid_solid, hs]
      rfl
  | cons first rest =>
      rw [hs] at h
      cases hx : Runes.token (first :: rest) with
      | error e => rw [hx, locate] at h; cases h
      | ok found =>
          rw [hx, locate] at h
          cases h
          exact absurd (by simpa [Token.isEos] using ht) (Runes.token_cons hx).2.2

/-- A token that does not end the text takes runes away. -/
theorem length_read {place next : Place} {t : Token} (h : place.read = .ok (t, next))
    (ht : t.isEos = false) : next.runes.length < place.runes.length := by
  rw [read] at h
  cases hs : place.solid.runes with
  | nil =>
      rw [hs, Runes.token, locate] at h
      cases h
      simp [Token.isEos] at ht
  | cons first rest =>
      have hle := place.length_solid
      rw [hs] at h hle
      cases hx : Runes.token (first :: rest) with
      | error e => rw [hx, locate] at h; cases h
      | ok found =>
          rw [hx, locate] at h
          cases h
          have hpos := List.length_pos_iff.mpr (Runes.token_cons hx).1
          rw [past, hs, List.length_drop]
          rw [List.length_cons] at hle ⊢
          omega

/-- The tokens ahead of a place, up to the end token or a refusal. -/
inductive Upcoming : Place → List Token → Except Fault Token → Prop where
  | refused {place : Place} {fault : Fault} (h : place.read = .error fault) :
      Upcoming place [] (.error fault)
  | finished {place n : Place} {t : Token} (h : place.read = .ok (t, n))
      (ht : t.isEos = true) : Upcoming place [] (.ok t)
  | token {place n : Place} {t : Token} {ts : List Token} {ending : Except Fault Token}
      (h : place.read = .ok (t, n)) (ht : t.isEos = false)
      (hn : Upcoming n ts ending) : Upcoming place (t :: ts) ending

theorem exists_upcoming (place : Place) : ∃ ts ending, place.Upcoming ts ending := by
  induction hn : place.runes.length using Nat.strongRecOn generalizing place with
  | _ n ih =>
      subst hn
      cases h : place.read with
      | error fault => exact ⟨[], _, .refused h⟩
      | ok found =>
          obtain ⟨t, next⟩ := found
          by_cases ht : t.isEos = true
          · exact ⟨[], _, .finished h ht⟩
          · have ht : t.isEos = false := by simpa using ht
            obtain ⟨ts, ending, hup⟩ := ih _ (length_read h ht) next rfl
            exact ⟨t :: ts, ending, .token h ht hup⟩

theorem Upcoming.ne_eos {place : Place} {ts : List Token} {ending : Except Fault Token}
    (h : place.Upcoming ts ending) : ∀ t ∈ ts, t.kind ≠ .eos := by
  induction h with
  | refused h => exact fun t ht => absurd ht List.not_mem_nil
  | finished h _ => exact fun t ht => absurd ht List.not_mem_nil
  | token h ht _ ih =>
      intro u hu
      rcases List.mem_cons.mp hu with rfl | hu
      · simpa [Token.isEos] using ht
      · exact ih u hu

/-- Induction over the tokens of a place with an end token behind them. -/
@[elab_as_elim]
theorem Upcoming.induction_on_ok {eos : Token}
    {motive : ∀ (place : Place) (ts : List Token), place.Upcoming ts (.ok eos) → Prop}
    {place : Place} {ts : List Token} (h : place.Upcoming ts (.ok eos))
    (finished : ∀ {place n : Place} (hread : place.read = .ok (eos, n)) (heos : eos.isEos = true),
      motive place [] (.finished hread heos))
    (token : ∀ {place n : Place} {t : Token} {ts : List Token} (hread : place.read = .ok (t, n))
      (ht : t.isEos = false) (hn : n.Upcoming ts (.ok eos)),
      motive n ts hn → motive place (t :: ts) (.token hread ht hn)) : motive place ts h := by
  have hall : ∀ {place ts ending} (h : place.Upcoming ts ending) (hx : ending = .ok eos),
      motive place ts (hx ▸ h) := by
    intro place ts ending h hx
    induction h with
    | refused _ => cases hx
    | finished hread heos =>
        cases hx
        exact finished hread heos
    | token hread ht hn ih =>
        subst hx
        exact token hread ht hn (ih rfl)
  exact hall h rfl

theorem Upcoming.isEos {place : Place} {ts : List Token} {t : Token}
    (h : place.Upcoming ts (.ok t)) : t.kind = .eos := by
  induction h using Upcoming.induction_on_ok with
  | finished _ heos => simpa [Token.isEos] using heos
  | token _ _ _ ih => exact ih

end Place

/-! ## Readers -/

namespace TokenReader

variable {r : TokenReader} {place : Place}

/-- The reader stands at the place; it may have looked at the next token already. -/
def At (r : TokenReader) (place : Place) : Prop :=
  match r.held with
  | none => r.fragments.Near place
  | some t => ∃ next, place.read = .ok (t, next) ∧ r.fragments.Near next

theorem at_ofFeed (text : List Char) : (ofFeed (.ofText text)).At (.ofText text) :=
  FragmentReader.near_ofFeed text

theorem next_ok {t : Token} {next' : Place} (h : r.At place) (ht : place.read = .ok (t, next')) :
    ∃ s, next r = .ok t s ∧ s.At next' := by
  unfold At at h
  unfold next
  split at h
  · next hn =>
      have hx := Token.read_reads h
      rw [ht] at hx
      obtain ⟨s, hs, ha⟩ := hx
      rw [hn, hs]
      exact ⟨_, rfl, ha⟩
  · next u hu =>
      obtain ⟨next, hread, ha⟩ := h
      cases ht.symm.trans hread
      rw [hu]
      exact ⟨_, rfl, ha⟩

theorem next_error {fault : Fault} (h : r.At place) (hf : place.read = .error fault) :
    ∃ s, next r = .error (.refused fault) s := by
  unfold At at h
  unfold next
  split at h
  · next hn =>
      have hx := Token.read_reads h
      rw [hf] at hx
      obtain ⟨s, hs⟩ := hx
      rw [hn, hs]
      exact ⟨_, rfl⟩
  · next u hu =>
      obtain ⟨next, hread, -⟩ := h
      cases hf.symm.trans hread

theorem peek_ok {t : Token} {next' : Place} (h : r.At place) (ht : place.read = .ok (t, next')) :
    ∃ s, peek r = .ok t s ∧ s.At place := by
  unfold At at h
  unfold peek
  split at h
  · next hn =>
      have hx := Token.read_reads h
      rw [ht] at hx
      obtain ⟨s, hs, ha⟩ := hx
      rw [hn, hs]
      exact ⟨_, rfl, next', ht, ha⟩
  · next u hu =>
      obtain ⟨next, hread, ha⟩ := h
      cases ht.symm.trans hread
      rw [hu]
      refine ⟨_, rfl, ?_⟩
      rw [At, hu]
      exact ⟨next', ht, ha⟩

theorem peek_error {fault : Fault} (h : r.At place) (hf : place.read = .error fault) :
    ∃ s, peek r = .error (.refused fault) s := by
  unfold At at h
  unfold peek
  split at h
  · next hn =>
      have hx := Token.read_reads h
      rw [hf] at hx
      obtain ⟨s, hs⟩ := hx
      rw [hn, hs]
      exact ⟨_, rfl⟩
  · next u hu =>
      obtain ⟨next, hread, -⟩ := h
      cases hf.symm.trans hread

/-- The weight of a reader bounds the number of tokens ahead. -/
theorem length_le_weight {ts : List Token} {ending : Except Fault Token}
    (h : place.Upcoming ts ending) (hr : r.At place) : ts.length ≤ r.weight := by
  induction h generalizing r with
  | refused h => exact Nat.zero_le _
  | finished h _ => exact Nat.zero_le _
  | token h ht _ ih =>
      obtain ⟨s, hs, ha⟩ := next_ok hr h
      have hlt := weight_next hs ht
      have hle := ih ha
      rw [List.length_cons]
      omega

/-- What handing out all tokens gives when `ts` are ahead. -/
def total (ts : List Token) (s : TokenReader) :
    Except Fault Token → EStateM.Result SourceError TokenReader (List Token)
  | .ok t => .ok (ts ++ [t]) s
  | .error fault => .error (.refused fault) s

theorem all_upcoming {ts : List Token} {ending : Except Fault Token}
    (h : place.Upcoming ts ending) (hr : r.At place) : ∃ s, all r = total ts s ending := by
  induction h generalizing r with
  | refused h =>
      obtain ⟨s, hs⟩ := next_error hr h
      refine ⟨s, ?_⟩
      rw [all.eq_def]
      split <;> rename_i hs' <;> cases hs.symm.trans hs'
      rfl
  | finished h ht =>
      obtain ⟨s, hs, -⟩ := next_ok hr h
      refine ⟨s, ?_⟩
      rw [all.eq_def]
      split <;> rename_i hs' <;> cases hs.symm.trans hs'
      rw [dif_pos ht]
      rfl
  | @token place next t ts ending h ht hn ih =>
      obtain ⟨s, hs, ha⟩ := next_ok hr h
      obtain ⟨u, hu⟩ := ih ha
      refine ⟨u, ?_⟩
      rw [all.eq_def]
      split <;> rename_i hs' <;> cases hs.symm.trans hs'
      rw [dif_neg (by rw [ht]; exact Bool.false_ne_true), hu]
      cases ending <;> rfl

end TokenReader

end SoliditySource
