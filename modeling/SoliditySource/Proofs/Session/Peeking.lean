import SoliditySource.Proofs.Rule.Gathers
import SoliditySource.Session

/-! # Looking leaves no trace

What a step looked at is there for the steps after it, and only its own answer tells that it
was made. Leaving such steps out of a session leaves out their answers and changes no other
one, in results as in positions, whatever the source delivers and however steps fail.
-/

namespace SoliditySource

/-! ## Steps that are left out -/

section

variable {ρ σ ε α : Type} {step : σ → EStateM ε ρ α} {position : ρ → Position}
  {looked : σ → Answer ε α → Bool}

/-- What a step answers, and the reader it leaves. -/
def Answer.of (position : ρ → Position) : EStateM.Result ε ρ α → Answer ε α × ρ
  | .ok a t => (⟨.ok a, position t⟩, t)
  | .error e t => (⟨.error e, position t⟩, t)

theorem answers_cons (s : σ) (steps : List σ) (r : ρ) :
    answers step position (s :: steps) r =
      (Answer.of position (step s r)).1 ::
        answers step position steps (Answer.of position (step s r)).2 := by
  rw [answers]
  cases step s r with
  | ok a t => rfl
  | error e t => rfl

/-- Readers on which every step does the same give the same answers. -/
theorem answers_congr {r r' : ρ} (h : ∀ s, step s r = step s r') (steps : List σ) :
    answers step position steps r = answers step position steps r' := by
  cases steps with
  | nil => rfl
  | cons s steps => rw [answers_cons, answers_cons, h]

/-- The steps that did not merely look, with their answers. -/
def unlooked (looked : σ → Answer ε α → Bool) (steps : List σ) (given : List (Answer ε α)) :
    List (σ × Answer ε α) :=
  (steps.zip given).filter fun entry => !looked entry.1 entry.2

/-- No step can tell whether one that looked was made before it. -/
def Traceless (step : σ → EStateM ε ρ α) (position : ρ → Position)
    (looked : σ → Answer ε α → Bool) : Prop :=
  ∀ s r, looked s (Answer.of position (step s r)).1 = true →
    ∀ s', step s' (Answer.of position (step s r)).2 = step s' r

/-- By induction on the steps: where one looked, the reader it leaves answers the rest of the
session like the reader it was made on. -/
theorem Traceless.answers_unlooked (h : Traceless step position looked) (steps : List σ)
    (r : ρ) :
    answers step position
        ((unlooked looked steps (answers step position steps r)).map Prod.fst) r =
      (unlooked looked steps (answers step position steps r)).map Prod.snd := by
  induction steps generalizing r with
  | nil => rfl
  | cons s steps ih =>
      have htail := ih (Answer.of position (step s r)).2
      rw [answers_cons, unlooked, List.zip_cons_cons]
      cases hl : looked s (Answer.of position (step s r)).1 with
      | true =>
          rw [List.filter_cons_of_neg (by simp [hl]), ← unlooked, ← htail]
          exact answers_congr (fun s' => (h s r hl s').symm) _
      | false =>
          rw [List.filter_cons_of_pos (by simp [hl]), ← unlooked, List.map_cons, List.map_cons,
            answers_cons, htail]

/-- What holds of any two steps in a row and their answers holds all along a session. -/
theorem isChain_answers {next : σ × Answer ε α → σ × Answer ε α → Prop}
    (h : ∀ s s' r, next (s, (Answer.of position (step s r)).1)
      (s', (Answer.of position (step s' (Answer.of position (step s r)).2)).1))
    (steps : List σ) (r : ρ) :
    (steps.zip (answers step position steps r)).IsChain next := by
  induction steps generalizing r with
  | nil => exact .nil
  | cons s steps ih =>
      have htail := ih (Answer.of position (step s r)).2
      rw [answers_cons, List.zip_cons_cons]
      cases steps with
      | nil => exact .singleton _
      | cons s' steps =>
          rw [answers_cons, List.zip_cons_cons] at htail ⊢
          exact .cons_cons (h s s' r) htail

/-- A step that looked is answered alike when it is made again right after. -/
theorem Traceless.isChain (h : Traceless step position looked) (steps : List σ) (r : ρ) :
    (steps.zip (answers step position steps r)).IsChain fun entry after =>
      looked entry.1 entry.2 = true → after.1 = entry.1 → after.2 = entry.2 := by
  refine isChain_answers ?_ steps r
  intro s s' r hl hs
  dsimp only at hl hs ⊢
  rw [h s r hl s', hs]

end

/-! ## Fragments -/

/-- Holds of a look that showed a fragment. -/
def FragmentStep.looked : FragmentStep → Answer ReadFailure (Option Fragment) → Bool
  | peek, ⟨.ok (some _), _⟩ => true
  | _, _ => false

theorem FragmentStep.eq_peek {s : FragmentStep} {answer : Answer ReadFailure (Option Fragment)}
    (h : s.looked answer = true) : s = peek := by
  cases s with
  | next => simp [looked] at h
  | peek => rfl

namespace FragmentReader

variable {r s : FragmentReader}

theorem held_lookAhead {n : Nat} {a : Option Char} (h : lookAhead n r = .ok a s) :
    s.held = r.held := by
  unfold lookAhead at h
  split at h
  · cases h; rfl
  · split at h <;> cases h <;> rfl

theorem held_longestOperator {n : Nat} {op longer : List Char}
    (h : longestOperator n op r = .ok longer s) : s.held = r.held := by
  induction n generalizing op r with
  | zero => cases h; rfl
  | succ n ih =>
      unfold longestOperator at h
      split at h
      · cases h; rfl
      · simp only [bind, EStateM.bind] at h
        cases hl : lookAhead op.length r with
        | error e t => simp [hl] at h
        | ok a t =>
            have ht := held_lookAhead hl
            simp only [hl] at h
            cases a with
            | none => cases h; exact ht
            | some c =>
                simp only at h
                split at h
                · rw [ih h, ht]
                · cases h; exact ht

theorem held_takeWhile {p : Char → Bool} {text : List Char} (h : takeWhile p r = .ok text s) :
    s.held = r.held := by
  fun_induction takeWhile p r generalizing text s with
  | case1 r cause t hl => cases h
  | case2 r t hl => cases h; exact held_lookAhead hl
  | case3 r c t hl hp text' t' ht ih =>
      cases h
      have hs := held_lookAhead hl
      rw [ih ht, hs]
  | case4 r c t hl hp cause t' ht ih => cases h
  | case5 r c t hl hp => cases h; exact held_lookAhead hl

theorem held_lexeme {first : Char} {text : List Char} (h : lexeme first r = .ok text s) :
    s.held = r.held := by
  unfold lexeme at h
  split at h
  · split at h
    · next op t hl =>
        have ht := held_longestOperator hl
        cases h
        exact ht
    · cases h
  · split at h
    · cases h; rfl
    · split at h
      · exact held_takeWhile h
      · exact held_takeWhile h

/-- Cutting off a fragment does not touch the one that is held. -/
theorem held_cut {f : Option Fragment} (h : cut r = .ok f s) : s.held = r.held := by
  unfold cut at h
  split at h
  · cases h
  · next hl => cases h; exact held_lookAhead hl
  · next first t hl =>
      have ht := held_lookAhead hl
      split at h
      · next hx => cases h; rw [held_lexeme hx, ht]
      · cases h

/-- A fragment that was looked at is the next one to be handed out, and is looked at again. -/
theorem next_of_peek {f : Fragment} (h : r.peek = .ok (some f) s) :
    s.next = r.next ∧ s.peek = r.peek := by
  have hheld := (peek_held h).2
  have hnext : s.next = .ok (some f) { s with held := none } := by rw [next, hheld]
  have hpeek : s.peek = .ok (some f) s := by rw [peek, hheld]
  refine ⟨?_, hpeek.trans h.symm⟩
  unfold peek at h
  split at h
  · cases h; rfl
  · next hn =>
      split at h
      · next g t hc =>
          cases h
          have ht : t.held = none := (held_cut hc).trans hn
          rw [hnext, next, hn]
          dsimp only
          rw [hc, ← ht]
      · cases h

/-- A step that looked at a fragment is a look with an answer. -/
theorem peek_of_looked {s : FragmentStep}
    (h : s.looked (Answer.of position (step s r)).1 = true) :
    s = .peek ∧ ∃ f t, r.peek = .ok (some f) t := by
  have hs := FragmentStep.eq_peek h
  rw [hs, step] at h
  refine ⟨hs, ?_⟩
  cases hp : r.peek with
  | error cause t => simp [hp, Answer.of, FragmentStep.looked] at h
  | ok f t =>
      cases f with
      | none => simp [hp, Answer.of, FragmentStep.looked] at h
      | some f => exact ⟨f, t, rfl⟩

theorem traceless : Traceless step position FragmentStep.looked := by
  intro s r hl s'
  obtain ⟨rfl, f, t, hp⟩ := peek_of_looked hl
  have ht : (Answer.of position (step .peek r)).2 = t := by rw [step, hp, Answer.of]
  rw [ht]
  cases s' with
  | next => exact (next_of_peek hp).1
  | peek => exact (next_of_peek hp).2

end FragmentReader

/-! ## Tokens -/

/-- Holds of a look that showed a token. -/
def TokenStep.looked : TokenStep → Answer SourceError (List Token) → Bool
  | peek, ⟨.ok _, _⟩ => true
  | _, _ => false

theorem TokenStep.eq_peek {s : TokenStep} {answer : Answer SourceError (List Token)}
    (h : s.looked answer = true) : s = peek := by
  cases s with
  | next => simp [looked] at h
  | peek => rfl
  | all => simp [looked] at h

namespace TokenReader

variable {r s : TokenReader}

theorem peek_of_peek {t : Token} (h : r.peek = .ok t s) : s.peek = r.peek := by
  rw [h, peek, (next_of_peek h).2]

/-- All tokens are told by the next one and the reader it leaves. -/
theorem all_congr (h : s.next = r.next) : s.all = r.all := by
  rw [all.eq_def, h, ← all.eq_def]

/-- A step that looked at a token is a look with an answer. -/
theorem peek_of_looked {s : TokenStep}
    (h : s.looked (Answer.of position (step s r)).1 = true) :
    s = .peek ∧ ∃ t u, r.peek = .ok t u := by
  have hs := TokenStep.eq_peek h
  rw [hs] at h
  refine ⟨hs, ?_⟩
  cases hp : r.peek with
  | ok t u => exact ⟨t, u, rfl⟩
  | error e u => simp [step, Functor.map, EStateM.map, hp, Answer.of, TokenStep.looked] at h

theorem traceless : Traceless step position TokenStep.looked := by
  intro s r hl s'
  obtain ⟨rfl, t, u, hp⟩ := peek_of_looked hl
  have hu : (Answer.of position (step .peek r)).2 = u := by
    simp [step, Functor.map, EStateM.map, hp, Answer.of]
  have hnext := (next_of_peek hp).1
  rw [hu]
  cases s' with
  | next => simp only [step, Functor.map, EStateM.map, hnext]
  | peek => simp only [step, Functor.map, EStateM.map, peek_of_peek hp]
  | all => exact all_congr hnext

end TokenReader

/-! ## Sessions -/

/-- A session that leaves out every look that showed something gets the answers that the rest
of the session got with these looks in it, with the same positions; and a look right after
such a look shows the same. The source may deliver and fail in any way. -/
theorem sessions_unlooked (chunks : List Chunk) :
    (∀ steps : List TokenStep,
      let reader := TokenReader.ofFeed (.ofChunks chunks)
      let rest := unlooked TokenStep.looked steps (reader.session steps)
      reader.session (rest.map Prod.fst) = rest.map Prod.snd ∧
      (steps.zip (reader.session steps)).IsChain fun entry after =>
        entry.1.looked entry.2 = true → after.1 = .peek → after.2 = entry.2) ∧
    (∀ steps : List FragmentStep,
      let reader := FragmentReader.ofFeed (.ofChunks chunks)
      let rest := unlooked FragmentStep.looked steps (reader.session steps)
      reader.session (rest.map Prod.fst) = rest.map Prod.snd ∧
      (steps.zip (reader.session steps)).IsChain fun entry after =>
        entry.1.looked entry.2 = true → after.1 = .peek → after.2 = entry.2) := by
  constructor
  · intro steps reader rest
    have hchain := TokenReader.traceless.isChain steps reader
    refine ⟨TokenReader.traceless.answers_unlooked steps reader, hchain.imp ?_⟩
    intro entry after h hl hpeek
    exact h hl (hpeek.trans (TokenStep.eq_peek hl).symm)
  · intro steps reader rest
    have hchain := FragmentReader.traceless.isChain steps reader
    refine ⟨FragmentReader.traceless.answers_unlooked steps reader, hchain.imp ?_⟩
    intro entry after h hl hpeek
    exact h hl (hpeek.trans (FragmentStep.eq_peek hl).symm)

/-- The look that meets the failure stays. -/
example :
    let reader := FragmentReader.ofFeed
      (.ofChunks [.data [0x61], .data [], .failure ⟨.other, "gone"⟩, .data [0x3B]])
    let steps : List FragmentStep := [.peek, .next, .peek, .peek, .next]
    (unlooked FragmentStep.looked steps (reader.session steps)).map Prod.fst =
      [.next, .peek, .next] := by
  cbv

end SoliditySource
