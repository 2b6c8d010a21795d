import SoliditySource.Proofs.Parse.Contents
import SoliditySource.Proofs.Source.Failures

/-! # All tokens of a source

Tokens are handed out one by one, all up to the end, or to the rule of a production, and steps go
on after failures. What holds of every token that is read from a reader of fragments, and what
reading a token keeps of such a reader, holds of all tokens that any of these hand out.
-/

namespace SoliditySource

/-- The step leaves a reader of which `inv` holds, even if it fails, and gives a value of which
`p` holds. -/
def Yields {ε ρ α : Type} (inv : ρ → Prop) (p : α → Prop) : EStateM.Result ε ρ α → Prop
  | .ok a s => inv s ∧ p a
  | .error _ s => inv s

theorem Yields.ok {ε ρ α : Type} {inv : ρ → Prop} {p : α → Prop} {x : EStateM.Result ε ρ α}
    {a : α} {s : ρ} (h : Yields inv p x) (hx : x = .ok a s) : inv s ∧ p a := by
  rwa [hx] at h

theorem Yields.error {ε ρ α : Type} {inv : ρ → Prop} {p : α → Prop}
    {x : EStateM.Result ε ρ α} {e : ε} {s : ρ} (h : Yields inv p x) (hx : x = .error e s) :
    inv s := by
  rwa [hx] at h

theorem Yields.left {ε ρ α : Type} {inv : ρ → Prop} {p : α → Prop} {x : EStateM.Result ε ρ α}
    (h : Yields inv p x) : inv (left x) := by
  cases x with
  | ok a s => exact h.1
  | error e s => exact h

theorem Ends.yields {ε ρ α : Type} {inv : ρ → Prop} {p : ε → Prop} {x : EStateM.Result ε ρ α}
    (h : Ends inv p x) {q : α → Prop} (hq : ∀ a s, x = .ok a s → q a) : Yields inv q x := by
  cases x with
  | ok a s => exact ⟨h, hq a s rfl⟩
  | error e s => exact h.2

/-- A step answers a list with its only token. -/
theorem Yields.singleton {ε ρ α : Type} {inv : ρ → Prop} {p : α → Prop} {x : EStateM ε ρ α}
    {r : ρ} (h : Yields inv p (x r)) :
    Yields inv (fun as => ∀ a ∈ as, p a) (((fun a => [a]) <$> x) r) := by
  show Yields inv _ (EStateM.map _ x r)
  unfold EStateM.map
  cases hx : x r with
  | ok a s =>
      obtain ⟨hs, ha⟩ := h.ok hx
      exact ⟨hs, by simpa using ha⟩
  | error e s => exact h.error hx

namespace TokenReader

/-- Readers that are left by any steps and productions, failing or not, made on a reader at the
start of the feed. -/
inductive Reached (feed : Feed) : TokenReader → Prop where
  | start : Reached feed (ofFeed feed)
  | step {r : TokenReader} (h : Reached feed r) (s : TokenStep) : Reached feed (left (step s r))
  | parse {r : TokenReader} (h : Reached feed r) {α : Type} (production : Production α) :
      Reached feed (r.parse production).reader

/-- The invariant holds of the reader of fragments, and `p` of the token that is held. -/
structure Holds (inv : FragmentReader → Prop) (p : Token → Prop) (r : TokenReader) : Prop where
  fragments : inv r.fragments
  held : ∀ t ∈ r.held, p t

section

variable {inv : FragmentReader → Prop} {p : Token → Prop} {r : TokenReader}

theorem Holds.next (h : r.Holds inv p) (g : ∀ r, inv r → Yields inv p (Token.read r)) :
    Yields (Holds inv p) p r.next := by
  have hread := g r.fragments h.fragments
  unfold TokenReader.next
  split
  · next t ht => exact ⟨⟨h.fragments, by simp⟩, h.held t ht⟩
  · next hnone =>
      split
      · next t s ht =>
          obtain ⟨hs, hp⟩ := hread.ok ht
          exact ⟨⟨hs, by simp [hnone]⟩, hp⟩
      · next e s he => exact ⟨hread.error he, by simp [hnone]⟩

theorem Holds.peek (h : r.Holds inv p) (g : ∀ r, inv r → Yields inv p (Token.read r)) :
    Yields (Holds inv p) p r.peek := by
  have hread := g r.fragments h.fragments
  unfold TokenReader.peek
  split
  · next t ht => exact ⟨h, h.held t ht⟩
  · next hnone =>
      split
      · next t s ht =>
          obtain ⟨hs, hp⟩ := hread.ok ht
          exact ⟨⟨hs, by simpa using hp⟩, hp⟩
      · next e s he => exact ⟨hread.error he, by simp [hnone]⟩

theorem Holds.all (h : r.Holds inv p) (g : ∀ r, inv r → Yields inv p (Token.read r)) :
    Yields (Holds inv p) (fun ts => ∀ t ∈ ts, p t) r.all := by
  fun_induction TokenReader.all r with
  | case1 r e s hn => exact (h.next g).error hn
  | case2 r t s hn ht =>
      obtain ⟨hs, hp⟩ := (h.next g).ok hn
      exact ⟨hs, by simpa using hp⟩
  | case3 r t s hn ht ts u ha ih =>
      obtain ⟨hs, hp⟩ := (h.next g).ok hn
      obtain ⟨hu, hall⟩ := (ih hs).ok ha
      exact ⟨hu, List.forall_mem_cons.mpr ⟨hp, hall⟩⟩
  | case4 r t s hn ht e u ha ih => exact (ih ((h.next g).ok hn).1).error ha

theorem Holds.step (h : r.Holds inv p) (g : ∀ r, inv r → Yields inv p (Token.read r))
    (s : TokenStep) : Yields (Holds inv p) (fun ts => ∀ t ∈ ts, p t) (step s r) := by
  cases s with
  | next => exact Yields.singleton (h.next g)
  | peek => exact Yields.singleton (h.peek g)
  | all => exact h.all g

/-- By induction on the rule: each token that it takes or looks at is read from a reader of which
the invariant holds. -/
theorem Holds.run (h : r.Holds inv p) (g : ∀ r, inv r → Yields inv p (Token.read r)) {α : Type}
    (rule : Rule α) : (rule.run r).reader.Holds inv p ∧ ∀ t ∈ rule.taken r, p t := by
  induction rule generalizing r with
  | done value => exact ⟨h, by simp [Rule.taken]⟩
  | refuse fault => exact ⟨h, by simp [Rule.taken]⟩
  | look next ih =>
      rw [Rule.run, Rule.taken]
      cases hp : r.peek with
      | error e s => exact ⟨(h.peek g).error hp, by simp⟩
      | ok t s => exact ih t ((h.peek g).ok hp).1
  | take next ih =>
      rw [Rule.run, Rule.taken]
      cases hn : r.next with
      | error e s => exact ⟨(h.next g).error hn, by simp⟩
      | ok t s =>
          obtain ⟨hs, ht⟩ := (h.next g).ok hn
          obtain ⟨hreader, htaken⟩ := ih t hs
          exact ⟨hreader, List.forall_mem_cons.mpr ⟨ht, htaken⟩⟩
  | note event next ih => exact ih h

end

theorem Reached.holds {inv : FragmentReader → Prop} {p : Token → Prop} {feed : Feed}
    {r : TokenReader} (h : Reached feed r) (g : ∀ r, inv r → Yields inv p (Token.read r))
    (hfeed : inv (.ofFeed feed)) : r.Holds inv p := by
  induction h with
  | start => exact ⟨hfeed, fun t ht => by cases ht⟩
  | step h s ih => exact (ih.step g s).left
  | parse h production ih => exact (ih.run g _).1

end TokenReader

end SoliditySource
