import SoliditySource.Proofs.Fragment.Account
import SoliditySource.Proofs.Source.Failures

/-! # Sessions that go on after failures

However a source is cut, delivers and fails, and whichever steps are made on its reader, every
rune is accounted for: it is in a fragment that was returned, was lost to a step that failed, or
is waiting. Positions are those of the runes before, lost ones included.
-/

namespace SoliditySource.FragmentReader

/-- A step of a session, what it gave, and the reader it left. -/
structure Call where
  step : FragmentStep
  result : Except ReadFailure (Option Fragment)
  reader : FragmentReader

def call (s : FragmentStep) (r : FragmentReader) : Call :=
  match step s r with
  | .ok f t => ⟨s, .ok f, t⟩
  | .error cause t => ⟨s, .error cause, t⟩

/-- The calls of a session. -/
def calls : List FragmentStep → FragmentReader → List Call
  | [], _ => []
  | s :: steps, r => call s r :: calls steps (call s r).reader

/-- The reader that a session leaves. -/
def after (steps : List FragmentStep) (r : FragmentReader) : FragmentReader :=
  leftBy step steps r

@[simp] theorem after_nil (r : FragmentReader) : after [] r = r := rfl

theorem left_step (s : FragmentStep) (r : FragmentReader) :
    left (step s r) = (call s r).reader := by
  rw [call]
  cases step s r <;> rfl

theorem after_cons (s : FragmentStep) (steps : List FragmentStep) (r : FragmentReader) :
    after (s :: steps) r = after steps (call s r).reader := by
  rw [after, leftBy, List.foldl_cons, left_step]
  rfl

theorem calls_eq_append {steps : List FragmentStep} {r : FragmentReader} {xs ys : List Call}
    (h : calls steps r = xs ++ ys) :
    ∃ front back, xs = calls front r ∧ ys = calls back (after front r) := by
  induction xs generalizing steps r with
  | nil => exact ⟨[], steps, rfl, h.symm⟩
  | cons x xs ih =>
      cases steps with
      | nil => simp [calls] at h
      | cons s steps =>
          rw [calls, List.cons_append, List.cons.injEq] at h
          obtain ⟨front, back, hx, hy⟩ := ih h.2
          exact ⟨s :: front, back, by rw [calls, ← h.1, ← hx], by rwa [after_cons]⟩

theorem calls_eq_cons {steps : List FragmentStep} {r : FragmentReader} {c : Call}
    {cs : List Call} (h : calls steps r = c :: cs) :
    ∃ s back, c = call s r ∧ cs = calls back c.reader := by
  cases steps with
  | nil => simp [calls] at h
  | cons s steps =>
      rw [calls, List.cons.injEq] at h
      exact ⟨s, steps, h.1.symm, by rw [← h.1, h.2]⟩

namespace Call

/-- The call returned the fragment. -/
def Returned (c : Call) (f : Fragment) : Prop := c.result = .ok (some f)

/-- The call returned an error. -/
def Failed (c : Call) : Prop := ∃ cause, c.result = .error cause

/-- What a call moves past: the fragment that it hands out, or what it loses when it fails. -/
inductive Passes : Call → List Char → Prop where
  | next (f : Fragment) {s : FragmentReader} (h : s.held = none) :
      Passes ⟨.next, .ok (some f), s⟩ f.text
  | peek (f : Fragment) {s : FragmentReader} (h : s.held = some f) :
      Passes ⟨.peek, .ok (some f), s⟩ []
  | ended (step : FragmentStep) (s : FragmentReader) : Passes ⟨step, .ok none, s⟩ []
  | failed (step : FragmentStep) (cause : ReadFailure) (s : FragmentReader)
      (lost : List Char) : Passes ⟨step, .error cause, s⟩ lost

end Call

/-- The runes of a fragment that is held. -/
def heldText (r : FragmentReader) : List Char := (r.held.map Fragment.text).getD []

/-- The fragments to come start behind the runes of `passed`. The feed delivered these, the
ones of a fragment that is held and the pending ones. -/
structure Accounts (feed : Feed) (passed : List Char) (r : FragmentReader) : Prop where
  delivered : feed.Delivers (passed ++ r.heldText ++ r.pending) r.feed
  cursor_eq : r.cursor = Position.start.advance (passed ++ r.heldText)
  position_eq : r.position = Position.start.advance passed
  waiting : Rune.Waiting r.pending
  length_le : r.held ≠ none → r.pending.length ≤ 1
  text_ne_nil : ∀ f, r.held = some f → f.text ≠ []

variable {feed : Feed} {passed text : List Char} {r s : FragmentReader}

theorem accounts_ofFeed (feed : Feed) : Accounts feed [] (ofFeed feed) where
  delivered := .start
  cursor_eq := rfl
  position_eq := rfl
  waiting := .inl (Nat.zero_le _)
  length_le h := absurd rfl h
  text_ne_nil f h := by cases h

namespace Accounts

theorem spend (h : Accounts feed passed r) (hn : r.held = none) (hs : Spends text r s)
    (hw : Rune.Waiting s.pending) : Accounts feed (passed ++ text) s := by
  have hnone : s.held = none := hs.held_eq.trans hn
  have hcursor := h.cursor_eq
  have hdelivered := h.delivered
  obtain ⟨got, hgot, heq⟩ := hs.delivered
  simp only [heldText, hn, Option.map_none, Option.getD_none, List.append_nil]
    at hcursor hdelivered
  have hall := hdelivered.trans hgot
  rw [List.append_assoc, heq, ← List.append_assoc] at hall
  have hend : s.cursor = Position.start.advance (passed ++ text) := by
    rw [hs.cursor_eq, hcursor, Position.advance_append]
  constructor
  · simpa [heldText, hnone] using hall
  · simpa [heldText, hnone] using hend
  · simpa [position, hnone] using hend
  · exact hw
  · exact fun hne => absurd hnone hne
  · simp [hnone]

theorem hold (h : Accounts feed passed r) (hn : r.held = none) {f : Fragment}
    (hs : Spends f.text r s) (hp : f.position = r.cursor) (hne : f.text ≠ [])
    (hlen : s.pending.length ≤ 1) : Accounts feed passed { s with held := some f } := by
  have hspent := h.spend hn hs (.inl hlen)
  have hdelivered := hspent.delivered
  have hcursor := hspent.cursor_eq
  have hnone : s.held = none := hs.held_eq.trans hn
  simp only [heldText, hnone, Option.map_none, Option.getD_none, List.append_nil]
    at hdelivered hcursor
  constructor
  · exact hdelivered
  · exact hcursor
  · rw [position]
    have hstart := h.position_eq
    rw [position, hn] at hstart
    exact hp.trans hstart
  · exact .inl hlen
  · exact fun _ => hlen
  · intro g hg
    cases hg
    exact hne

theorem release (h : Accounts feed passed r) {f : Fragment} (hf : r.held = some f) :
    Accounts feed (passed ++ f.text) { r with held := none } := by
  have hdelivered := h.delivered
  have hcursor := h.cursor_eq
  simp only [heldText, hf, Option.map_some, Option.getD_some] at hdelivered hcursor
  constructor
  · simpa [heldText] using hdelivered
  · simpa [heldText] using hcursor
  · exact hcursor
  · exact h.waiting
  · exact fun hne => absurd rfl hne
  · exact fun g hg => by cases hg

end Accounts

/-- A fragment that is held is what the next call returns. -/
theorem call_of_held {f : Fragment} (hf : r.held = some f) (s : FragmentStep) :
    call s r = ⟨s, .ok (some f), if s = .peek then r else { r with held := none }⟩ := by
  cases s with
  | next => simp [call, step, next, hf]
  | peek => simp [call, step, peek, hf]

/-- Without a fragment that is held, a fragment is cut off. -/
theorem call_of_cut (hn : r.held = none) (s : FragmentStep) :
    call s r =
      match cut r with
      | .ok f t => ⟨s, .ok f, if s = .peek then { t with held := f } else t⟩
      | .error cause t => ⟨s, .error cause, t⟩ := by
  cases s with
  | next =>
      simp only [call, step, next, hn]
      cases cut r <;> rfl
  | peek =>
      simp only [call, step, peek, hn]
      cases cut r <;> rfl

/-- A step returns the fragment behind what was passed, and leaves the account in order. -/
theorem accounts_call (h : Accounts feed passed r) (s : FragmentStep) :
    ∃ text, (call s r).Passes text ∧ Accounts feed (passed ++ text) (call s r).reader ∧
      (¬(call s r).Failed → (call s r).reader.pending.length ≤ 1) ∧
      ∀ f, (call s r).Returned f →
        f.position = Position.start.advance passed ∧ f.text ≠ [] := by
  cases hf : r.held with
  | some f =>
      have hready := h.length_le (by simp [hf])
      have hreturned : f.position = Position.start.advance passed ∧ f.text ≠ [] := by
        have hp := h.position_eq
        rw [position, hf] at hp
        exact ⟨hp, h.text_ne_nil f hf⟩
      rw [call_of_held hf]
      cases s with
      | next =>
          refine ⟨f.text, .next f rfl, h.release hf, fun _ => hready, fun g hg => ?_⟩
          cases hg
          exact hreturned
      | peek =>
          refine ⟨[], .peek f hf, by simpa using h, fun _ => hready, fun g hg => ?_⟩
          cases hg
          exact hreturned
  | none =>
      have hcursor : r.cursor = Position.start.advance passed := by
        have hp := h.position_eq
        rwa [position, hf] at hp
      rw [call_of_cut hf]
      cases hc : cut r with
      | error cause t =>
          obtain ⟨lost, hs, hw⟩ := spends_cut_error hc
          exact ⟨lost, .failed s cause t lost, h.spend hf hs hw,
            fun hfail => absurd ⟨cause, rfl⟩ hfail, fun g hg => by cases hg⟩
      | ok f t =>
          cases f with
          | none =>
              obtain ⟨hs, hnil⟩ := spends_cut_none hc
              have hlen : t.pending.length ≤ 1 := by simp [hnil]
              have ht := h.spend hf hs (.inl hlen)
              have hheld : { t with held := none } = t := by
                have hnone := hs.held_eq.trans hf
                cases t
                cases hnone
                rfl
              dsimp only
              rw [hheld, ite_self]
              exact ⟨[], .ended s t, ht, fun _ => hlen, fun g hg => by cases hg⟩
          | some f =>
              obtain ⟨hs, hp, hne, hlen⟩ := spends_cut h.waiting hc
              have hreturned : ∀ g, (⟨s, .ok (some f), t⟩ : Call).Returned g →
                  g.position = Position.start.advance passed ∧ g.text ≠ [] := by
                intro g hg
                cases hg
                exact ⟨hp.trans hcursor, hne⟩
              cases s with
              | next =>
                  exact ⟨f.text, .next f (hs.held_eq.trans hf), h.spend hf hs (.inl hlen),
                    fun _ => hlen, hreturned⟩
              | peek =>
                  exact ⟨[], .peek f rfl, by simpa using h.hold hf hs hp hne hlen,
                    fun _ => hlen, hreturned⟩

/-! ## Runs -/

/-- By induction on the steps. A fragment that is held at the start is still held at the end,
or has been passed. -/
theorem accounts_run (h : Accounts feed passed r) (steps : List FragmentStep) :
    ∃ text, Accounts feed (passed ++ text) (after steps r) ∧
      (text ≠ [] → ∃ c ∈ calls steps r, c.Failed ∨ ∃ f, c.Returned f) ∧
      ∀ f, r.held = some f →
        (after steps r).held = some f ∧ text = [] ∧ (∀ c ∈ calls steps r, c.step = .peek) ∨
          ∃ more, text = f.text ++ more := by
  induction steps generalizing passed r with
  | nil =>
      refine ⟨[], by simpa using h, by simp, fun f hf => .inl ⟨hf, rfl, ?_⟩⟩
      simp [calls]
  | cons s steps ih =>
      obtain ⟨text, hpasses, hafter, -, -⟩ := accounts_call h s
      obtain ⟨more, hend, hcause, hheld⟩ := ih hafter
      rw [after_cons]
      refine ⟨text ++ more, by rwa [← List.append_assoc], ?_, ?_⟩
      · intro hne
        by_cases hmore : more = []
        · refine ⟨_, List.mem_cons_self, ?_⟩
          generalize call s r = c at hpasses
          cases hpasses with
          | next f => exact .inr ⟨f, rfl⟩
          | peek f => exact absurd hmore hne
          | ended => exact absurd hmore hne
          | failed s cause t lost => exact .inl ⟨cause, rfl⟩
        · obtain ⟨c, hc, hcause⟩ := hcause hmore
          exact ⟨c, List.mem_cons_of_mem _ hc, hcause⟩
      · intro f hf
        have hcall := call_of_held hf s
        rw [calls]
        generalize call s r = c at hpasses hcall hheld
        cases hpasses with
        | next g => cases hcall; exact .inr ⟨more, rfl⟩
        | ended => cases hcall
        | failed => cases hcall
        | @peek g t hg =>
            cases hcall
            obtain ⟨hstill, rfl, hpeeks⟩ | ⟨rest, rfl⟩ := hheld f hg
            · refine .inl ⟨hstill, rfl, fun c hc => ?_⟩
              cases hc with
              | head => rfl
              | tail _ hc => exact hpeeks c hc
            · exact .inr ⟨rest, rfl⟩

/-- A call in the middle of a session starts on an account that is in order. -/
theorem accounts_of_calls_eq {steps : List FragmentStep} {xs ys : List Call} {c : Call}
    (h : calls steps (ofFeed feed) = xs ++ c :: ys) :
    ∃ s back r passed, Accounts feed passed r ∧ c = call s r ∧ ys = calls back c.reader := by
  obtain ⟨front, back, -, hback⟩ := calls_eq_append h
  obtain ⟨passed, hpassed, -⟩ := accounts_run (accounts_ofFeed feed) front
  obtain ⟨s, back, hc, hys⟩ := calls_eq_cons hback.symm
  exact ⟨s, back, _, _, hpassed, hc, hys⟩

/-- Behind a fragment that a call returned: its runes are passed, or it is held. -/
theorem accounts_returned (h : Accounts feed passed r) {s : FragmentStep} {f : Fragment}
    (hf : (call s r).Returned f) :
    Accounts feed (passed ++ f.text) (call s r).reader ∨
      Accounts feed passed (call s r).reader ∧ (call s r).step = .peek ∧
        (call s r).reader.held = some f := by
  obtain ⟨text, hpasses, hafter, -⟩ := accounts_call h s
  generalize call s r = c at hf hpasses hafter
  cases hpasses with
  | next g => cases hf; exact .inl hafter
  | @peek g t hg => cases hf; exact .inr ⟨by simpa using hafter, rfl, hg⟩
  | ended => cases hf
  | failed => cases hf

/-- A fragment that a call returned is a piece of what was decoded. -/
theorem delivered_returned (h : Accounts feed passed r) {s : FragmentStep} {f : Fragment}
    (hf : (call s r).Returned f) :
    ∃ back, feed.Delivers (passed ++ f.text ++ back) (call s r).reader.feed := by
  cases accounts_returned h hf with
  | inl hpassed =>
      have hall := hpassed.delivered
      rw [List.append_assoc _ _ (call s r).reader.pending] at hall
      exact ⟨_, hall⟩
  | inr hheld =>
      obtain ⟨hpassed, -, hf⟩ := hheld
      have hall := hpassed.delivered
      rw [heldText, hf] at hall
      exact ⟨_, hall⟩

/-- From a call that returned a fragment on, up to the next fragment that is not this one. -/
theorem accounts_between (h : Accounts feed passed r) {s : FragmentStep} {f : Fragment}
    (hf : (call s r).Returned f) (steps : List FragmentStep) :
    ((call s r).step = .peek ∧ (∀ c ∈ calls steps (call s r).reader, c.step = .peek) ∧
      (after steps (call s r).reader).held = some f) ∨
    ∃ gap, Accounts feed (passed ++ f.text ++ gap) (after steps (call s r).reader) ∧
      (gap ≠ [] → ∃ c ∈ calls steps (call s r).reader, c.Failed ∨ ∃ f', c.Returned f') := by
  cases accounts_returned h hf with
  | inl hpassed =>
      obtain ⟨gap, hend, hcause, -⟩ := accounts_run hpassed steps
      exact .inr ⟨gap, hend, hcause⟩
  | inr hheld =>
      obtain ⟨hpassed, hstep, hheld⟩ := hheld
      obtain ⟨text, hend, hcause, hstill⟩ := accounts_run hpassed steps
      obtain ⟨hstill, -, hpeeks⟩ | ⟨gap, rfl⟩ := hstill f hheld
      · exact .inl ⟨hstep, hpeeks, hstill⟩
      · refine .inr ⟨gap, by rwa [List.append_assoc], fun hne => hcause ?_⟩
        simp [hne]

/-- A source is cut, delivers and fails in any way, and steps go on after failures. After every
call at most one rune is pending, or an operator that the call failed to look behind; the runes
that were used up and the pending ones are all that were decoded, and the position is the one
behind those used up. Every fragment that is returned is a piece of the decoded runes, at the
position of its first rune. Of two fragments returned one after the other, the second one is the
first one that was only looked at, or it comes behind it; what lies between them was lost to a
call that failed. -/
theorem calls_account (chunks : List Chunk) (steps : List FragmentStep) :
    let feed := Feed.ofChunks chunks
    let all := calls steps (ofFeed feed)
    (∀ c ∈ all,
      Rune.Waiting c.reader.pending ∧ (¬c.Failed → c.reader.pending.length ≤ 1) ∧
      ∃ taken, c.reader.cursor = Position.start.advance taken ∧
        ∀ runes, feed.Delivers runes c.reader.feed ↔ runes = taken ++ c.reader.pending) ∧
    (∀ c ∈ all, ∀ f, c.Returned f →
      f.text ≠ [] ∧ ∃ front back, feed.Delivers (front ++ f.text ++ back) c.reader.feed ∧
        f.position = Position.start.advance front) ∧
    ∀ xs earlier between later ys f g,
      all = xs ++ earlier :: (between ++ later :: ys) → earlier.Returned f → later.Returned g →
      (g = f ∧ earlier.step = .peek ∧ ∀ c ∈ between, c.step = .peek) ∨
      ∃ front gap back,
        feed.Delivers (front ++ f.text ++ gap ++ g.text ++ back) later.reader.feed ∧
        f.position = Position.start.advance front ∧
        g.position = Position.start.advance (front ++ f.text ++ gap) ∧
        ((∀ c ∈ between, ∀ f', ¬c.Returned f') → gap ≠ [] → ∃ c ∈ between, c.Failed) := by
  intro feed all
  have hmem : ∀ c ∈ all, ∃ s r passed, Accounts feed passed r ∧ c = call s r := by
    intro c hc
    obtain ⟨xs, ys, hsplit⟩ := List.append_of_mem hc
    obtain ⟨s, back, r, passed, h, hc, -⟩ := accounts_of_calls_eq hsplit
    exact ⟨s, r, passed, h, hc⟩
  refine ⟨fun c hc => ?_, fun c hc f hf => ?_, ?_⟩
  · obtain ⟨s, r, passed, h, rfl⟩ := hmem c hc
    obtain ⟨text, -, hafter, hlen, -⟩ := accounts_call h s
    refine ⟨hafter.waiting, hlen, _, hafter.cursor_eq, fun runes => ⟨fun hd => ?_, ?_⟩⟩
    · exact hd.unique hafter.delivered
    · rintro rfl
      exact hafter.delivered
  · obtain ⟨s, r, passed, h, rfl⟩ := hmem c hc
    obtain ⟨text, -, -, -, hreturned⟩ := accounts_call h s
    obtain ⟨hp, hne⟩ := hreturned f hf
    obtain ⟨back, hback⟩ := delivered_returned h hf
    exact ⟨hne, passed, back, hback, hp⟩
  · intro xs earlier between later ys f g hsplit hf hg
    obtain ⟨s, back, r, passed, h, rfl, hback⟩ := accounts_of_calls_eq hsplit
    obtain ⟨front, back', rfl, hback'⟩ := calls_eq_append hback.symm
    obtain ⟨s', -, rfl, -⟩ := calls_eq_cons hback'.symm
    obtain ⟨-, -, -, -, hreturned⟩ := accounts_call h s
    obtain ⟨hstep, hpeeks, hheld⟩ | ⟨gap, hend, hcause⟩ := accounts_between h hf front
    · refine .inl ⟨?_, hstep, hpeeks⟩
      rw [call_of_held hheld] at hg
      cases hg
      rfl
    · obtain ⟨-, -, -, -, hreturned'⟩ := accounts_call hend s'
      obtain ⟨rest, hrest⟩ := delivered_returned hend hg
      refine .inr ⟨passed, gap, rest, hrest, (hreturned f hf).1, (hreturned' g hg).1, ?_⟩
      intro hnone hne
      obtain ⟨c, hc, hfailed | ⟨f', hf'⟩⟩ := hcause hne
      · exact ⟨c, hc, hfailed⟩
      · exact absurd hf' (hnone c hc f')

/-- The first failure strikes behind `<<`, which stays; the second one loses the word before it,
and the position is the one behind that word. -/
example :
    let chunks := [.data [0x3C, 0x3C], .failure ⟨.other, "gone"⟩, .data [0x61, 0x62],
      .failure ⟨.other, "gone"⟩, .data [0x3B]]
    (calls [.next, .next, .next, .next] (ofFeed (.ofChunks chunks))).map
        (fun c => (c.result, c.reader.pending, c.reader.cursor)) =
      [(.error ⟨.other, "gone"⟩, ['<', '<'], ⟨1, 1⟩),
        (.ok (some ⟨⟨1, 1⟩, ['<', '<']⟩), ['a'], ⟨1, 3⟩),
        (.error ⟨.other, "gone"⟩, [], ⟨1, 5⟩),
        (.ok (some ⟨⟨1, 5⟩, [';']⟩), [], ⟨1, 6⟩)] := by
  cbv

end SoliditySource.FragmentReader
