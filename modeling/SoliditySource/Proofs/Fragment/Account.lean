import SoliditySource.Fragment.Reader

/-! # An account of the runes

A reader neither makes up runes nor drops them unseen: what the feed delivered is what was
used up and what is pending, in this order. Steps that fail keep the account too, wherever the
failure strikes. A failure inside an operator leaves the operator pending, and a failure inside
a run leaves nothing pending, because the runes before it are used up.
-/

namespace SoliditySource

/-- The runes that a feed delivers until the second feed is left of it. Pauses and failures may
come in between. -/
inductive Feed.Delivers (feed : Feed) : List Char → Feed → Prop where
  | start : Delivers feed [] feed
  | rune {runes : List Char} {mid rest : Feed} {c : Char} (h : Delivers feed runes mid)
      (hp : mid.pull = (.rune c, rest)) : Delivers feed (runes ++ [c]) rest
  | pause {runes : List Char} {mid rest : Feed} (h : Delivers feed runes mid)
      (hp : mid.pull = (.pause, rest)) : Delivers feed runes rest
  | fault {runes : List Char} {mid rest : Feed} {cause : ReadFailure}
      (h : Delivers feed runes mid) (hp : mid.pull = (.fault cause, rest)) :
      Delivers feed runes rest

theorem Feed.Delivers.trans {feed mid rest : Feed} {runes more : List Char}
    (h : feed.Delivers runes mid) (hm : mid.Delivers more rest) :
    feed.Delivers (runes ++ more) rest := by
  induction hm with
  | start => simpa using h
  | rune hm hp ih => simpa using ih.rune hp
  | pause hm hp ih => exact ih.pause hp
  | fault hm hp ih => exact ih.fault hp

/-- All runes that a feed is going to deliver. -/
def Feed.decoded : Feed → List Char
  | finished => []
  | blocked => []
  | next (.rune c) rest => c :: rest.decoded
  | next .pause rest => rest.decoded
  | next (.fault _) rest => rest.decoded

theorem Feed.decoded_pull (feed : Feed) :
    feed.decoded =
      match feed.pull with
      | (.rune c, rest) => c :: rest.decoded
      | (_, rest) => rest.decoded := by
  cases feed with
  | finished => rfl
  | blocked => rfl
  | next d rest => cases d <;> rfl

theorem Feed.Delivers.decoded_eq {feed rest : Feed} {runes : List Char}
    (h : feed.Delivers runes rest) : feed.decoded = runes ++ rest.decoded := by
  induction h with
  | start => rfl
  | @rune runes mid rest c h hp ih =>
      have hpull := mid.decoded_pull
      rw [hp] at hpull
      simp [ih, hpull]
  | @pause runes mid rest h hp ih =>
      have hpull := mid.decoded_pull
      rw [hp] at hpull
      rw [ih, hpull]
  | @fault runes mid rest cause h hp ih =>
      have hpull := mid.decoded_pull
      rw [hp] at hpull
      rw [ih, hpull]

/-- What is left of a feed tells what it delivered. -/
theorem Feed.Delivers.unique {feed rest : Feed} {runes more : List Char}
    (h : feed.Delivers runes rest) (hm : feed.Delivers more rest) : runes = more :=
  List.append_cancel_right (h.decoded_eq.symm.trans hm.decoded_eq)

/-- The runes that can wait to be used: at most one, or an operator that was about to be
found longer. -/
def Rune.Waiting (runes : List Char) : Prop :=
  runes.length ≤ 1 ∨ runes = ['<', '<'] ∨ runes = ['>', '>'] ∨ runes = ['>', '>', '>']

theorem Rune.waiting_of_extensions {op : List Char} (h : extensions op ≠ []) : Waiting op := by
  unfold extensions at h
  split at h <;> simp_all [Waiting]

/-- Only the split symbols `<` and `>` can have more runes waiting behind them. -/
theorem Rune.Waiting.length_le {c : Char} {more : List Char} (h : Waiting (c :: more))
    (hc : isSplit c = false) : (c :: more).length ≤ 1 := by
  obtain h | h | h | h := h
  · exact h
  all_goals
    cases h
    simp [isSplit] at hc

namespace FragmentReader

/-- From the first reader to the second one, the runes of `text` were used up, and the runes
that the feed delivered were put behind the pending ones. -/
structure Spends (text : List Char) (r s : FragmentReader) : Prop where
  delivered : ∃ got, r.feed.Delivers got s.feed ∧ r.pending ++ got = text ++ s.pending
  cursor_eq : s.cursor = r.cursor.advance text
  held_eq : s.held = r.held

variable {r s t : FragmentReader} {text more : List Char}

theorem Spends.refl (r : FragmentReader) : Spends [] r r :=
  ⟨⟨[], .start, by simp⟩, rfl, rfl⟩

theorem Spends.trans (h : Spends text r s) (hm : Spends more s t) :
    Spends (text ++ more) r t := by
  obtain ⟨got, hgot, heq⟩ := h.delivered
  obtain ⟨got', hgot', heq'⟩ := hm.delivered
  refine ⟨⟨got ++ got', hgot.trans hgot', ?_⟩, ?_, hm.held_eq.trans h.held_eq⟩
  · rw [← List.append_assoc, heq, List.append_assoc, heq', List.append_assoc]
  · rw [hm.cursor_eq, h.cursor_eq, Position.advance_append]

theorem Spends.take (r : FragmentReader) (n : Nat) :
    Spends (r.pending.take n) r
      { r with pending := r.pending.drop n, cursor := r.cursor.advance (r.pending.take n) } :=
  ⟨⟨[], .start, by simp⟩, rfl, rfl⟩

/-! ## Looking ahead -/

/-- What looking `n` runes ahead can come to. -/
inductive Looks (n : Nat) (r : FragmentReader) :
    EStateM.Result ReadFailure FragmentReader (Option Char) → Prop where
  | pending {c : Char} (h : r.pending[n]? = some c) : Looks n r (.ok (some c) r)
  | rune {c : Char} {rest : Feed} (h : r.pending[n]? = none) (hp : r.feed.pull = (.rune c, rest)) :
      Looks n r (.ok (some c) { r with feed := rest, pending := r.pending ++ [c] })
  | pause {rest : Feed} (h : r.pending[n]? = none) (hp : r.feed.pull = (.pause, rest)) :
      Looks n r (.ok none { r with feed := rest })
  | fault {cause : ReadFailure} {rest : Feed} (h : r.pending[n]? = none)
      (hp : r.feed.pull = (.fault cause, rest)) :
      Looks n r (.error cause { r with feed := rest })

theorem looks_lookAhead (n : Nat) (r : FragmentReader) : Looks n r (lookAhead n r) := by
  unfold lookAhead
  split
  · next h => exact .pending h
  · next h =>
      split
      · next hp => exact .rune h hp
      · next hp => exact .pause h hp
      · next hp => exact .fault h hp

theorem spends_lookAhead {n : Nat} {a : Option Char} (h : lookAhead n r = .ok a s) :
    Spends [] r s := by
  have hl := looks_lookAhead n r
  rw [h] at hl
  cases hl with
  | pending => exact .refl r
  | @rune c rest hn hp => exact ⟨⟨[c], .rune .start hp, by simp⟩, rfl, rfl⟩
  | pause hn hp => exact ⟨⟨[], .pause .start hp, by simp⟩, rfl, rfl⟩

theorem spends_lookAhead_error {n : Nat} {cause : ReadFailure}
    (h : lookAhead n r = .error cause s) : Spends [] r s := by
  have hl := looks_lookAhead n r
  rw [h] at hl
  cases hl with
  | fault hn hp => exact ⟨⟨[], .fault .start hp, by simp⟩, rfl, rfl⟩

section

variable {op rest : List Char}

/-- The rune behind `op` was pending, or it is the last one that is pending now. -/
theorem pending_lookAhead_some {c : Char} (hr : r.pending = op ++ rest)
    (h : lookAhead op.length r = .ok (some c) s) :
    ∃ rest', s.pending = op ++ c :: rest' ∧ (rest = c :: rest' ∨ rest = [] ∧ rest' = []) := by
  have hl := looks_lookAhead op.length r
  rw [h] at hl
  cases hl with
  | pending hc =>
      cases rest with
      | nil => simp [hr] at hc
      | cons d rest =>
          simp only [hr, List.getElem?_append_right (Nat.le_refl _), Nat.sub_self,
            List.getElem?_cons_zero, Option.some.injEq] at hc
          exact ⟨rest, by rw [hr, hc], .inl (by rw [hc])⟩
  | rune hn _ =>
      have hnil : rest = [] := by simpa [hr] using hn
      exact ⟨[], by simp [hr, hnil], .inr ⟨hnil, rfl⟩⟩

theorem pending_lookAhead_none (hr : r.pending = op ++ rest)
    (h : lookAhead op.length r = .ok none s) : s.pending = op := by
  have hl := looks_lookAhead op.length r
  rw [h] at hl
  cases hl with
  | pause hn _ => simpa [hr] using hn

theorem pending_lookAhead_error {cause : ReadFailure} (hr : r.pending = op ++ rest)
    (h : lookAhead op.length r = .error cause s) : s.pending = op := by
  have hl := looks_lookAhead op.length r
  rw [h] at hl
  cases hl with
  | fault hn _ => simpa [hr] using hn

end

/-! ## Operators -/

theorem spends_longestOperator {n : Nat} {op longer : List Char}
    (h : longestOperator n op r = .ok longer s) : Spends [] r s := by
  induction n generalizing op r with
  | zero => cases h; exact .refl _
  | succ n ih =>
      unfold longestOperator at h
      split at h
      · cases h; exact .refl _
      · simp only [bind, EStateM.bind] at h
        cases hl : lookAhead op.length r with
        | error e t => simp [hl] at h
        | ok a t =>
            have ht := spends_lookAhead hl
            simp only [hl] at h
            cases a with
            | none => cases h; exact ht
            | some c =>
                dsimp only at h
                split at h
                · exact ht.trans (ih h)
                · cases h; exact ht

/-- What is pending behind the operator `op` while up to `n` runes more can be asked for. There
are two such runes only where `>>>` was pending and `>` is what was seen of it. -/
def Behind (n : Nat) (op rest : List Char) : Prop :=
  rest.length ≤ 1 ∨ n ≠ 0 ∧ op = ['>'] ∧ rest = ['>', '>']

/-- Where an operator ends, at most one rune is behind it. -/
theorem Behind.length_le {n : Nat} {op rest : List Char} (h : Behind n op rest)
    (hop : n ≠ 0 → ∀ c rest', rest = c :: rest' → c ∉ Rune.extensions op) : rest.length ≤ 1 := by
  obtain h | ⟨hn, rfl, rfl⟩ := h
  · exact h
  · have := hop hn _ _ rfl
    simp [Rune.extensions] at this

theorem Behind.of_waiting {c : Char} (h : Rune.Waiting (c :: more)) : Behind 3 [c] more := by
  simp only [Rune.Waiting, List.length_cons, List.cons.injEq] at h
  rcases h with h | ⟨-, rfl⟩ | ⟨-, rfl⟩ | ⟨rfl, rfl⟩
  · exact .inl (by omega)
  · exact .inl (by simp)
  · exact .inl (by simp)
  · exact .inr (by simp)

theorem Behind.step {n : Nat} {op rest : List Char} {c : Char}
    (h : Behind (n + 1) op (c :: rest)) : Behind n (op ++ [c]) rest := by
  obtain h | ⟨-, -, h⟩ := h
  · have hrest : rest = [] := by simpa using h
    simp [Behind, hrest]
  · simp only [List.cons.injEq] at h
    simp [Behind, h.2]

/-- The operator that is found is pending, with at most one rune behind it. -/
theorem pending_longestOperator {n : Nat} {op longer rest : List Char}
    (hr : r.pending = op ++ rest) (hb : Behind n op rest)
    (h : longestOperator n op r = .ok longer s) :
    ∃ rest', s.pending = longer ++ rest' ∧ rest'.length ≤ 1 := by
  induction n generalizing op rest r with
  | zero => cases h; exact ⟨rest, hr, hb.length_le (by simp)⟩
  | succ n ih =>
      unfold longestOperator at h
      split at h
      · next he =>
          have hnone : Rune.extensions op = [] := by simpa using he
          cases h
          exact ⟨rest, hr, hb.length_le (by simp [hnone])⟩
      · simp only [bind, EStateM.bind] at h
        cases hl : lookAhead op.length r with
        | error e t => simp [hl] at h
        | ok a t =>
            simp only [hl] at h
            cases a with
            | none => cases h; exact ⟨[], by simp [pending_lookAhead_none hr hl], by simp⟩
            | some c =>
                obtain ⟨rest', ht, hrest⟩ := pending_lookAhead_some hr hl
                have hb' : Behind (n + 1) op (c :: rest') := by
                  obtain rfl | ⟨-, rfl⟩ := hrest
                  · exact hb
                  · exact .inl (by simp)
                dsimp only at h
                split at h
                · exact ih (by simp [ht]) hb'.step h
                · next hc =>
                    cases h
                    refine ⟨_, ht, hb'.length_le fun _ d more heq => ?_⟩
                    cases heq
                    exact hc

/-- A failure while an operator is looked for leaves what was seen of it pending. -/
theorem spends_longestOperator_error {n : Nat} {op rest : List Char} {cause : ReadFailure}
    (hr : r.pending = op ++ rest) (h : longestOperator n op r = .error cause s) :
    Spends [] r s ∧ Rune.Waiting s.pending := by
  induction n generalizing op rest r with
  | zero => cases h
  | succ n ih =>
      unfold longestOperator at h
      split at h
      · cases h
      · next he =>
          simp only [bind, EStateM.bind] at h
          cases hl : lookAhead op.length r with
          | error e t =>
              simp only [hl] at h
              cases h
              refine ⟨spends_lookAhead_error hl, ?_⟩
              rw [pending_lookAhead_error hr hl]
              exact Rune.waiting_of_extensions (by simpa using he)
          | ok a t =>
              simp only [hl] at h
              cases a with
              | none => cases h
              | some c =>
                  obtain ⟨rest', ht, -⟩ := pending_lookAhead_some hr hl
                  dsimp only at h
                  split at h
                  · have hgrown : t.pending = (op ++ [c]) ++ rest' := by simp [ht]
                    obtain ⟨hs, hw⟩ := ih hgrown h
                    exact ⟨(spends_lookAhead hl).trans hs, hw⟩
                  · cases h

/-! ## Runs -/

/-- The next rune was pending already, or it is the only pending one. -/
theorem lookAhead_zero_some {c : Char} (h : lookAhead 0 r = .ok (some c) s) :
    ∃ more, s.pending = c :: more ∧ (s.pending = r.pending ∨ more = []) := by
  obtain ⟨more, hs, hr⟩ := pending_lookAhead_some (List.nil_append _).symm h
  exact ⟨more, hs, hr.imp (fun hr => hs.trans hr.symm) And.right⟩

theorem lookAhead_zero_none (h : lookAhead 0 r = .ok none s) : s.pending = [] :=
  pending_lookAhead_none (List.nil_append _).symm h

theorem length_pending_lookAhead {a : Option Char} (h : lookAhead 0 r = .ok a s)
    (hr : r.pending.length ≤ 1) : s.pending.length ≤ 1 := by
  cases a with
  | none => simp [lookAhead_zero_none h]
  | some c =>
      obtain ⟨more, hmore, heq | rfl⟩ := lookAhead_zero_some h
      · rwa [heq]
      · simp [hmore]

/-- The rune that was looked at is used up. -/
theorem Spends.rune {c : Char} (h : lookAhead 0 r = .ok (some c) s) :
    Spends [c] r { s with pending := s.pending.tail, cursor := s.cursor.after c } := by
  obtain ⟨more, hmore, -⟩ := lookAhead_zero_some h
  have htake := (spends_lookAhead h).trans (.take s 1)
  simpa [hmore] using htake

theorem spends_takeWhile {p : Char → Bool} (h : takeWhile p r = .ok text s) :
    Spends text r s ∧ (r.pending.length ≤ 1 → s.pending.length ≤ 1) := by
  fun_induction takeWhile p r generalizing text s with
  | case1 r cause t hl => cases h
  | case2 r t hl => cases h; exact ⟨spends_lookAhead hl, length_pending_lookAhead hl⟩
  | case3 r c t hl hp text' u hu ih =>
      cases h
      obtain ⟨hs, hlen⟩ := ih hu
      refine ⟨(Spends.rune hl).trans hs, fun hr => hlen ?_⟩
      have := length_pending_lookAhead hl hr
      simp only [List.length_tail]
      omega
  | case4 r c t hl hp cause u hu ih => cases h
  | case5 r c t hl hp => cases h; exact ⟨spends_lookAhead hl, length_pending_lookAhead hl⟩

/-- A failure inside a run leaves nothing pending: the runes of the run are used up. -/
theorem spends_takeWhile_error {p : Char → Bool} {cause : ReadFailure}
    (h : takeWhile p r = .error cause s) : ∃ lost, Spends lost r s ∧ s.pending = [] := by
  fun_induction takeWhile p r generalizing s with
  | case1 r e t hl =>
      cases h
      exact ⟨[], spends_lookAhead_error hl,
        pending_lookAhead_error (List.nil_append _).symm hl⟩
  | case2 r t hl => cases h
  | case3 r c t hl hp text' u hu ih => cases h
  | case4 r c t hl hp e u hu ih =>
      cases h
      obtain ⟨lost, hs, hnil⟩ := ih hu
      exact ⟨[c] ++ lost, (Spends.rune hl).trans hs, hnil⟩
  | case5 r c t hl hp => cases h

/-! ## Fragments -/

/-- The text of a fragment is what is used up of the runes, and at most one rune is pending
behind it. -/
theorem spends_lexeme {first : Char} (hr : r.pending = first :: more)
    (hw : Rune.Waiting r.pending) (h : lexeme first r = .ok text s) :
    Spends text r s ∧ text ≠ [] ∧ s.pending.length ≤ 1 := by
  unfold lexeme at h
  split at h
  · split at h
    · next op t hl =>
        obtain ⟨-, hgrown, -⟩ := longestOperator_grows hl
        have hop : r.pending = [first] ++ more := hr
        obtain ⟨rest, ht, hlen⟩ := pending_longestOperator hop (.of_waiting (hr ▸ hw)) hl
        have htake := (spends_longestOperator hl).trans (.take t op.length)
        simp only [ht, List.take_left, List.drop_left, List.nil_append] at htake
        simp only [takeRunes, ht, List.take_left, List.drop_left] at h
        cases h
        exact ⟨htake, List.ne_nil_of_length_pos hgrown, hlen⟩
    · cases h
  · next hsplit =>
      have hlen : r.pending.length ≤ 1 := by
        rw [hr] at hw ⊢
        exact hw.length_le (by simpa using hsplit)
      split at h
      · cases h
        exact ⟨.take r 1, by simp [hr], by simp; omega⟩
      · next hn =>
          have hrun : ∀ p : Char → Bool, p first = true → takeWhile p r = .ok text s →
              Spends text r s ∧ text ≠ [] ∧ s.pending.length ≤ 1 := by
            intro p hp ht
            obtain ⟨hs, hlen'⟩ := spends_takeWhile ht
            exact ⟨hs, takeWhile_ne_nil hr hp ht, hlen' hlen⟩
          split at h
          · next hsp => exact hrun _ hsp h
          · next hsp =>
              simp only [not_or] at hn
              exact hrun _ (by simp [Rune.isWord, hsplit, hsp, hn.1, hn.2]) h

theorem spends_lexeme_error {first : Char} {cause : ReadFailure}
    (hr : r.pending = first :: more) (h : lexeme first r = .error cause s) :
    ∃ lost, Spends lost r s ∧ Rune.Waiting s.pending := by
  unfold lexeme at h
  split at h
  · split at h
    · cases h
    · next hl =>
        cases h
        have hop : r.pending = [first] ++ more := hr
        exact ⟨[], spends_longestOperator_error hop hl⟩
  · split at h
    · cases h
    · split at h
      all_goals
        obtain ⟨lost, hs, hnil⟩ := spends_takeWhile_error h
        exact ⟨lost, hs, by simp [hnil, Rune.Waiting]⟩

theorem waiting_lookAhead {a : Option Char} (hw : Rune.Waiting r.pending)
    (h : lookAhead 0 r = .ok a s) : Rune.Waiting s.pending := by
  cases a with
  | none => simp [lookAhead_zero_none h, Rune.Waiting]
  | some c =>
      obtain ⟨more, hmore, heq | rfl⟩ := lookAhead_zero_some h
      · rwa [heq]
      · simp [hmore, Rune.Waiting]

theorem spends_cut {f : Fragment} (hw : Rune.Waiting r.pending) (h : cut r = .ok (some f) s) :
    Spends f.text r s ∧ f.position = r.cursor ∧ f.text ≠ [] ∧ s.pending.length ≤ 1 := by
  unfold cut at h
  split at h
  · cases h
  · cases h
  · next first t hl =>
      obtain ⟨more, hmore, -⟩ := lookAhead_zero_some hl
      have ht := spends_lookAhead hl
      split at h
      · next hx =>
          cases h
          obtain ⟨hs, hne, hlen⟩ := spends_lexeme hmore (waiting_lookAhead hw hl) hx
          exact ⟨ht.trans hs, by simpa using ht.cursor_eq, hne, hlen⟩
      · cases h

theorem spends_cut_none (h : cut r = .ok none s) : Spends [] r s ∧ s.pending = [] := by
  unfold cut at h
  split at h
  · cases h
  · next hl => cases h; exact ⟨spends_lookAhead hl, lookAhead_zero_none hl⟩
  · split at h <;> cases h

theorem spends_cut_error {cause : ReadFailure} (h : cut r = .error cause s) :
    ∃ lost, Spends lost r s ∧ Rune.Waiting s.pending := by
  unfold cut at h
  split at h
  · next hl =>
      cases h
      refine ⟨[], spends_lookAhead_error hl, ?_⟩
      simp [pending_lookAhead_error (List.nil_append _).symm hl, Rune.Waiting]
  · cases h
  · next first t hl =>
      obtain ⟨more, hmore, -⟩ := lookAhead_zero_some hl
      split at h
      · cases h
      · next hx =>
          cases h
          obtain ⟨lost, hs, hw⟩ := spends_lexeme_error hmore hx
          exact ⟨[] ++ lost, (spends_lookAhead hl).trans hs, hw⟩

end FragmentReader

end SoliditySource
