import SoliditySource.Proofs.Session.Account
import SoliditySource.Proofs.Session.Tokens

/-! # Fragments and tokens use up runes

A fragment that is handed out was held, or its runes are taken from those that are pending and
those that are not decoded yet. So every token but the end token takes runes away, and there are
no more tokens to come than runes.
-/

namespace SoliditySource

namespace FragmentReader

variable {feed : Feed} {passed : List Char} {r s : FragmentReader}

/-- The runes that are still to come in fragments: those of a fragment that is held, those that
are pending and those that are not decoded yet. -/
def remaining (r : FragmentReader) : List Char := r.heldText ++ r.pending ++ r.feed.decoded

theorem Accounts.decoded_eq (h : Accounts feed passed r) :
    feed.decoded = passed ++ r.remaining := by
  rw [h.delivered.decoded_eq, remaining, List.append_assoc, List.append_assoc, List.append_assoc]

/-- Between two readers of a feed lie the runes that the second one has passed. -/
theorem Accounts.remaining_eq {text : List Char} (h : Accounts feed passed r)
    (hs : Accounts feed (passed ++ text) s) : r.remaining = text ++ s.remaining := by
  have heq := h.decoded_eq.symm.trans hs.decoded_eq
  rw [List.append_assoc] at heq
  exact List.append_cancel_left heq

/-- The fragments to come start behind the runes of `passed`, and maybe behind some more. -/
def Past (feed : Feed) (passed : List Char) (r : FragmentReader) : Prop :=
  ∃ more, Accounts feed (passed ++ more) r

theorem past_ofFeed (feed : Feed) : Past feed [] (ofFeed feed) := ⟨[], accounts_ofFeed feed⟩

theorem Accounts.past (h : Accounts feed passed r) : Past feed passed r :=
  ⟨[], by rwa [List.append_nil]⟩

theorem Past.step (h : Past feed passed r) (s : FragmentStep) :
    Past feed passed (left (step s r)) := by
  obtain ⟨more, h⟩ := h
  obtain ⟨text, -, hafter, -⟩ := accounts_call h s
  rw [left_step]
  exact ⟨more ++ text, by rwa [← List.append_assoc]⟩

theorem keeps_past (feed : Feed) (passed : List Char) :
    Keeps (Past feed passed) fun _ => True where
  next h := Ends.of_left (h.step .next)
  peek h := Ends.of_left (h.step .peek)
  release := by
    rintro r ⟨more, h⟩
    cases hf : r.held with
    | none =>
        have hr : { r with held := none } = r := by rw [← hf]
        exact ⟨more, by rwa [hr]⟩
    | some f => exact ⟨more ++ f.text, by rw [← List.append_assoc]; exact h.release hf⟩

/-- No more runes are to come from a reader that is not before the first one. -/
theorem Accounts.remaining_le (h : Accounts feed passed r) (hs : Past feed passed s) :
    s.remaining.length ≤ r.remaining.length := by
  obtain ⟨more, hs⟩ := hs
  rw [h.remaining_eq hs, List.length_append]
  omega

/-- A fragment that is handed out was passed, and it is not empty. -/
theorem Accounts.next_some (h : Accounts feed passed r) {f : Fragment}
    (hn : r.next = .ok (some f) s) : Accounts feed (passed ++ f.text) s ∧ f.text ≠ [] := by
  have hcall : call .next r = ⟨.next, .ok (some f), s⟩ := by simp [call, step, hn]
  obtain ⟨text, hpasses, hafter, -, hreturned⟩ := accounts_call h .next
  rw [hcall] at hpasses hafter hreturned
  obtain ⟨-, hne⟩ := hreturned f rfl
  cases hpasses with
  | next => exact ⟨hafter, hne⟩

/-- A fragment that is handed out was held, or its runes are taken away. -/
theorem Past.next_progress (h : Past feed passed r) {f : Fragment}
    (hn : r.next = .ok (some f) s) :
    (r.held = some f ∧ s = { r with held := none }) ∨
      (r.held = none ∧ f.text ≠ [] ∧ r.remaining = f.text ++ s.remaining) := by
  obtain ⟨more, h⟩ := h
  obtain ⟨hs, hne⟩ := h.next_some hn
  cases hf : r.held with
  | some g =>
      rw [next, hf] at hn
      cases hn
      exact .inl ⟨rfl, rfl⟩
  | none => exact .inr ⟨rfl, hne, h.remaining_eq hs⟩

theorem Accounts.nextSolid_some (h : Accounts feed passed r) {f : Fragment}
    (hn : r.nextSolid = .ok (some f) s) :
    ∃ blanks, Accounts feed (passed ++ (blanks ++ f.text)) s ∧ f.text ≠ [] := by
  fun_induction nextSolid r generalizing passed with
  | case1 r cause t hn' => cases hn
  | case2 r t hn' => cases hn
  | case3 r g t hn' hb ih =>
      obtain ⟨blanks, hs, hne⟩ := ih (h.next_some hn').1 hn
      exact ⟨g.text ++ blanks, by simpa using hs, hne⟩
  | case4 r g t hn' hb =>
      cases hn
      obtain ⟨hs, hne⟩ := h.next_some hn'
      exact ⟨[], hs, hne⟩

end FragmentReader

namespace Token

open FragmentReader

variable {feed : Feed} {passed : List Char} {r s : FragmentReader} {t : Token}

theorem yields_read_past (hr : Past feed passed r) :
    Yields (Past feed passed) (fun _ => True) (read r) :=
  (ends_read (keeps_past feed passed) hr).yields fun _ _ _ => trivial

theorem length_remaining_read (hr : Past feed passed r) :
    (left (read r)).remaining.length ≤ r.remaining.length := by
  obtain ⟨more, hr⟩ := hr
  exact hr.remaining_le (yields_read_past hr.past).left

/-- Some runes are passed for a token, those of its first fragment at least. -/
theorem remaining_read (hr : Past feed passed r) (h : read r = .ok t s) (ht : t.isEos = false) :
    ∃ text, text ≠ [] ∧ r.remaining = text ++ s.remaining := by
  obtain ⟨more, hr⟩ := hr
  unfold read at h
  split at h
  · cases h
  · cases h
    cases ht
  · next f u hn =>
      obtain ⟨blanks, hu, hne⟩ := hr.nextSolid_some hn
      obtain ⟨rest, hs⟩ := (ends_ofFragment (keeps_past feed _) hu.past f).ok h
      rw [List.append_assoc _ (blanks ++ f.text)] at hs
      exact ⟨blanks ++ f.text ++ rest, by simp [hne], hr.remaining_eq hs⟩

/-- The number of tokens, end tokens apart. -/
def tally (ts : List Token) : Nat := ts.countP fun t => !t.isEos

@[simp] theorem tally_nil : tally [] = 0 := rfl

theorem tally_cons (t : Token) (ts : List Token) : tally (t :: ts) = tally [t] + tally ts := by
  simp only [tally, List.countP_cons, List.countP_nil]
  omega

theorem tally_eos (h : t.isEos = true) : tally [t] = 0 := by simp [tally, h]

theorem tally_of_ne_eos (h : t.isEos = false) : tally [t] = 1 := by simp [tally, h]

theorem tally_read (hr : Past feed passed r) (h : read r = .ok t s) :
    tally [t] + s.remaining.length ≤ r.remaining.length := by
  cases ht : t.isEos with
  | true =>
      have hle := length_remaining_read hr
      rw [h] at hle
      rwa [tally_eos ht, Nat.zero_add]
  | false =>
      obtain ⟨text, hne, htext⟩ := remaining_read hr h ht
      have hpos := List.length_pos_iff.mpr hne
      rw [tally_of_ne_eos ht, htext, List.length_append]
      omega

end Token

namespace TokenReader

open Token

variable {feed : Feed} {r s : TokenReader} {t : Token}

/-- A bound on the number of tokens to come, end tokens apart: one for each rune, and the token
that is held. -/
def room (r : TokenReader) : Nat := r.fragments.remaining.length + tally r.held.toList

theorem Reached.past (h : r.Reached feed) :
    r.Holds (FragmentReader.Past feed []) fun _ => True :=
  h.holds (fun _ => yields_read_past) (FragmentReader.past_ofFeed feed)

section

variable (h : r.Holds (FragmentReader.Past feed []) fun _ => True)

include h

/-- A token that is handed out was held, or it takes runes away. -/
theorem Holds.next_progress (hn : r.next = .ok t s) (ht : t.isEos = false) :
    (r.held = some t ∧ s = { r with held := none }) ∨
      (r.held = none ∧
        ∃ text, text ≠ [] ∧ r.fragments.remaining = text ++ s.fragments.remaining) := by
  unfold TokenReader.next at hn
  split at hn
  · next u hu =>
      cases hn
      exact .inl ⟨hu, rfl⟩
  · next hnone =>
      split at hn
      · next u v hread =>
          cases hn
          exact .inr ⟨hnone, remaining_read h.fragments hread ht⟩
      · cases hn

theorem Holds.room_next (hn : r.next = .ok t s) : tally [t] + s.room ≤ r.room := by
  unfold TokenReader.next at hn
  split at hn
  · next u hu =>
      cases hn
      simp only [room, hu, Option.toList_some, Option.toList_none, tally_nil]
      omega
  · next hnone =>
      split at hn
      · next u v hread =>
          cases hn
          have hle := tally_read h.fragments hread
          simpa [room, hnone] using hle
      · cases hn

theorem Holds.room_left_next : (left r.next).room ≤ r.room := by
  cases hn : r.next with
  | ok t s => exact Nat.le_trans (Nat.le_add_left _ _) (h.room_next hn)
  | error e s =>
      unfold TokenReader.next at hn
      split at hn
      · cases hn
      · next hnone =>
          split at hn
          · cases hn
          · next u hread =>
              cases hn
              have hle := length_remaining_read h.fragments
              rw [hread] at hle
              exact Nat.add_le_add_right hle _

theorem Holds.room_left_peek : (left r.peek).room ≤ r.room := by
  cases hp : r.peek with
  | ok t s =>
      unfold TokenReader.peek at hp
      split at hp
      · cases hp
        exact Nat.le_refl _
      · next hnone =>
          split at hp
          · next u v hread =>
              cases hp
              have hle := tally_read h.fragments hread
              simp only [left, room, hnone, Option.toList_some, Option.toList_none, tally_nil]
              omega
          · cases hp
  | error e s =>
      unfold TokenReader.peek at hp
      split at hp
      · cases hp
      · next hnone =>
          split at hp
          · cases hp
          · next u hread =>
              cases hp
              have hle := length_remaining_read h.fragments
              rw [hread] at hle
              exact Nat.add_le_add_right hle _

/-- By induction on the tokens: each of them but the end token leaves less room. -/
theorem Holds.length_all {ts : List Token} (ha : r.all = .ok ts s) : ts.length ≤ r.room + 1 := by
  fun_induction TokenReader.all r generalizing ts s with
  | case1 r e u hn => cases ha
  | case2 r t u hn ht =>
      cases ha
      exact Nat.succ_le_succ (Nat.zero_le _)
  | case3 r t u hn ht us v hall ih =>
      cases ha
      have hle := ih ((h.next fun _ => yields_read_past).ok hn).1 hall
      have hroom := h.room_next hn
      rw [tally_of_ne_eos (by simpa using ht)] at hroom
      rw [List.length_cons]
      omega
  | case4 r t u hn ht e v hall ih => cases ha

/-- By induction on the rule: the tokens that it takes leave less room, whether or not it
succeeds. -/
theorem Holds.room_run {α : Type} (rule : Rule α) :
    tally (rule.taken r) + (rule.run r).reader.room ≤ r.room := by
  induction rule generalizing r with
  | done value => simp [Rule.taken, Rule.run]
  | refuse fault => simp [Rule.taken, Rule.run]
  | look next ih =>
      have hle := h.room_left_peek
      rw [Rule.run, Rule.taken]
      cases hp : r.peek with
      | error e s =>
          rw [hp, left] at hle
          simpa using hle
      | ok t s =>
          rw [hp] at hle
          have hs := ((h.peek fun _ => yields_read_past).ok hp).1
          exact Nat.le_trans (ih t hs) hle
  | take next ih =>
      rw [Rule.run, Rule.taken]
      cases hn : r.next with
      | error e s =>
          have hle := h.room_left_next
          rw [hn, left] at hle
          simpa using hle
      | ok t s =>
          have hle := ih t ((h.next fun _ => yields_read_past).ok hn).1
          have hroom := h.room_next hn
          dsimp only
          rw [tally_cons]
          omega
  | note event next ih => exact ih h

end

end TokenReader

end SoliditySource
