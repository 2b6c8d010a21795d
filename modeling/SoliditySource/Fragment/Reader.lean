import SoliditySource.Fragment.Basic
import SoliditySource.Source.Feed

/-! # Cutting a feed into fragments

The reader holds the runes it has looked at and not yet used, the position of the
first of them, and at most one fragment that was looked at in advance. Steps keep
their effect on the reader when they fail: runes that were already moved into an
unfinished fragment are gone, runes that were only looked at stay.

`weight` bounds what can still be cut off; a fragment that is handed out makes it
smaller, which is why every loop over fragments ends.
-/

namespace SoliditySource

/-- A source in the course of being cut into fragments. -/
structure FragmentReader where
  feed : Feed
  /-- Runes that were looked at and are not used yet. -/
  pending : List Char
  /-- The position of the first pending rune. -/
  cursor : Position
  /-- A fragment that was looked at and is not handed out yet. -/
  held : Option Fragment

/-- A step of cutting. It may fail to read, and changes the reader even then. -/
abbrev Scan (α : Type) := EStateM ReadFailure FragmentReader α

namespace FragmentReader

def ofFeed (feed : Feed) : FragmentReader := ⟨feed, [], .start, none⟩

def position (r : FragmentReader) : Position :=
  match r.held with
  | some f => f.position
  | none => r.cursor

/-- A bound on the number of fragments to come. -/
def weight (r : FragmentReader) : Nat :=
  r.feed.length + r.pending.length + if r.held.isSome then 1 else 0

/-- The rune `n` places ahead, which is fetched unless it is pending; the runes
before it must be pending already. -/
def lookAhead (n : Nat) : Scan (Option Char) := fun r =>
  match r.pending[n]? with
  | some c => .ok (some c) r
  | none =>
      match r.feed.pull with
      | (.rune c, rest) => .ok (some c) { r with feed := rest, pending := r.pending ++ [c] }
      | (.pause, rest) => .ok none { r with feed := rest }
      | (.fault cause, rest) => .error cause { r with feed := rest }

def takeRunes (n : Nat) : Scan (List Char) := fun r =>
  .ok (r.pending.take n)
    { r with pending := r.pending.drop n, cursor := r.cursor.advance (r.pending.take n) }

/-- The longest operator that starts with `op` and has at most `n` runes more. Looks
no further than some operator reaches, and uses up nothing. -/
def longestOperator : Nat → List Char → Scan (List Char)
  | 0, op => pure op
  | n + 1, op =>
      if (Rune.extensions op).isEmpty then pure op
      else do
        match ← lookAhead op.length with
        | some c => if c ∈ Rune.extensions op then longestOperator n (op ++ [c]) else pure op
        | none => pure op

/-! ## Weight of the primitive steps -/

theorem weight_lookAhead {n : Nat} {r s : FragmentReader} {a : Option Char}
    (h : lookAhead n r = .ok a s) : s.weight ≤ r.weight := by
  unfold lookAhead at h
  split at h
  · cases h; exact Nat.le_refl _
  · have hl := Feed.length_pull r.feed
    split at h
    · next c rest hp =>
        have := Feed.length_pull_rune hp
        cases h
        simp only [weight, List.length_append, List.length_singleton]
        omega
    · next rest hp =>
        cases h
        simp only [hp] at hl
        simp only [weight]
        omega
    · cases h

theorem pending_lookAhead {n : Nat} {r s : FragmentReader} {a : Option Char}
    (h : lookAhead n r = .ok a s) : ∃ more, s.pending = r.pending ++ more := by
  unfold lookAhead at h
  split at h
  · cases h; exact ⟨[], by simp⟩
  · split at h
    · next c rest hp => cases h; exact ⟨[c], rfl⟩
    · cases h; exact ⟨[], by simp⟩
    · cases h

theorem head_lookAhead {r s : FragmentReader} {c : Char}
    (h : lookAhead 0 r = .ok (some c) s) : ∃ more, s.pending = c :: more := by
  unfold lookAhead at h
  split at h
  · next d hd =>
      cases h
      cases hp : r.pending with
      | nil => simp [hp] at hd
      | cons x xs =>
          rw [hp] at hd
          simp only [List.getElem?_cons_zero, Option.some.injEq] at hd
          exact ⟨xs, by rw [hd]⟩
  · next hd =>
      have hn : r.pending = [] := by simpa using hd
      split at h
      · cases h; exact ⟨[], by simp [hn]⟩
      · cases h
      · cases h

theorem weight_takeRunes {n : Nat} {r s : FragmentReader} {text : List Char}
    (h : takeRunes n r = .ok text s) : s.weight + min n r.pending.length = r.weight := by
  simp only [takeRunes, EStateM.Result.ok.injEq] at h
  obtain ⟨-, rfl⟩ := h
  simp only [weight, List.length_drop]
  omega

theorem longestOperator_grows {n : Nat} {op longer : List Char} {r s : FragmentReader}
    (h : longestOperator n op r = .ok longer s) :
    s.weight ≤ r.weight ∧ op.length ≤ longer.length ∧
      ∃ more, s.pending = r.pending ++ more := by
  induction n generalizing op r with
  | zero => cases h; exact ⟨Nat.le_refl _, Nat.le_refl _, [], by simp⟩
  | succ n ih =>
      unfold longestOperator at h
      split at h
      · cases h; exact ⟨Nat.le_refl _, Nat.le_refl _, [], by simp⟩
      · simp only [bind, EStateM.bind] at h
        cases hl : lookAhead op.length r with
        | error e t => simp [hl] at h
        | ok a t =>
            have hw := weight_lookAhead hl
            obtain ⟨more, hm⟩ := pending_lookAhead hl
            simp only [hl] at h
            cases a with
            | none => cases h; exact ⟨hw, Nat.le_refl _, more, hm⟩
            | some c =>
                simp only at h
                split at h
                · obtain ⟨h1, h2, more', h3⟩ := ih h
                  refine ⟨Nat.le_trans h1 hw, ?_, more ++ more', ?_⟩
                  · simp only [List.length_append, List.length_singleton] at h2
                    omega
                  · rw [h3, hm, List.append_assoc]
                · cases h; exact ⟨hw, Nat.le_refl _, more, hm⟩

/-! ## Runs of runes -/

/-- Uses up runes as long as `p` holds of them. A failure on the way loses the runes
used up before it. -/
def takeWhile (p : Char → Bool) (r : FragmentReader) :
    EStateM.Result ReadFailure FragmentReader (List Char) :=
  match _h : lookAhead 0 r with
  | .error cause s => .error cause s
  | .ok none s => .ok [] s
  | .ok (some c) s =>
      if p c then
        match takeWhile p { s with pending := s.pending.tail, cursor := s.cursor.after c } with
        | .ok text t => .ok (c :: text) t
        | .error cause t => .error cause t
      else .ok [] s
termination_by r.weight
decreasing_by
  have hw := weight_lookAhead _h
  obtain ⟨more, hm⟩ := head_lookAhead _h
  simp only [weight, hm, List.tail_cons, List.length_cons] at hw ⊢
  omega

theorem weight_takeWhile {p : Char → Bool} {r s : FragmentReader} {text : List Char}
    (h : takeWhile p r = .ok text s) : s.weight + text.length ≤ r.weight := by
  fun_induction takeWhile p r generalizing text s with
  | case1 r cause t hl => cases h
  | case2 r t hl => cases h; exact weight_lookAhead hl
  | case3 r c t hl hp text' t' ht ih =>
      cases h
      have hw := weight_lookAhead hl
      obtain ⟨more, hm⟩ := head_lookAhead hl
      have := ih ht
      simp only [weight, hm, List.tail_cons, List.length_cons] at hw this ⊢
      omega
  | case4 r c t hl hp cause t' ht ih => cases h
  | case5 r c t hl hp => cases h; exact weight_lookAhead hl

theorem takeWhile_ne_nil {p : Char → Bool} {r s : FragmentReader} {c : Char}
    {text more : List Char} (hc : r.pending = c :: more) (hp : p c = true)
    (h : takeWhile p r = .ok text s) : text ≠ [] := by
  have hl : lookAhead 0 r = .ok (some c) r := by simp [lookAhead, hc]
  unfold takeWhile at h
  split at h
  · next hl' => rw [hl] at hl'; cases hl'
  · next hl' => rw [hl] at hl'; cases hl'
  · next d t hl' =>
      rw [hl] at hl'
      cases hl'
      rw [if_pos hp] at h
      split at h
      · cases h; exact List.cons_ne_nil _ _
      · cases h

/-! ## Fragments -/

/-- The text of the fragment that starts with the pending rune `first`. A word goes
on through periods only if it starts with a digit. -/
def lexeme (first : Char) : Scan (List Char) := fun r =>
  if Rune.isSplit first then
    match longestOperator 3 [first] r with
    | .ok op s => takeRunes op.length s
    | .error cause s => .error cause s
  else if first = '\n' ∨ first = '.' then takeRunes 1 r
  else if Rune.isSpace first then takeWhile Rune.isSpace r
  else takeWhile (fun c => Rune.isWord c && (c ≠ '.' || first.isDigit)) r

def cut : Scan (Option Fragment) := fun r =>
  match lookAhead 0 r with
  | .error cause s => .error cause s
  | .ok none s => .ok none s
  | .ok (some first) s =>
      match lexeme first s with
      | .ok text t => .ok (some ⟨s.cursor, text⟩) t
      | .error cause t => .error cause t

/-- Hands out the next fragment; `none` at the end of the input, which need not stay
the end. -/
def next : Scan (Option Fragment) := fun r =>
  match r.held with
  | some f => .ok (some f) { r with held := none }
  | none => cut r

/-- Looks at the next fragment and holds it; an end of the input is not held. -/
def peek : Scan (Option Fragment) := fun r =>
  match r.held with
  | some f => .ok (some f) r
  | none =>
      match cut r with
      | .ok f s => .ok f { s with held := f }
      | .error cause s => .error cause s

theorem weight_lexeme {first : Char} {more text : List Char} {r s : FragmentReader}
    (hc : r.pending = first :: more) (h : lexeme first r = .ok text s) :
    s.weight < r.weight := by
  unfold lexeme at h
  split at h
  · split at h
    · next op t hl =>
        obtain ⟨hw, hlen, extra, hp⟩ := longestOperator_grows hl
        have := weight_takeRunes h
        simp only [hp, hc, List.length_append, List.length_cons, List.length_nil] at hlen this
        omega
    · cases h
  · next hs =>
      split at h
      · have := weight_takeRunes h
        simp only [hc, List.length_cons] at this
        omega
      · next hn =>
          have key : ∀ p : Char → Bool, p first = true → takeWhile p r = .ok text s →
              s.weight < r.weight := by
            intro p hp ht
            have h1 := weight_takeWhile ht
            have h2 := List.length_pos_iff.mpr (takeWhile_ne_nil hc hp ht)
            omega
          split at h
          · next hsp => exact key _ hsp h
          · next hsp =>
              refine key _ ?_ h
              simp only [not_or] at hn
              simp [Rune.isWord, hs, hsp, hn.1, hn.2]

theorem weight_cut {r s : FragmentReader} {f : Fragment} (h : cut r = .ok (some f) s) :
    s.weight < r.weight := by
  unfold cut at h
  split at h
  · cases h
  · cases h
  · next first t hl =>
      obtain ⟨more, hm⟩ := head_lookAhead hl
      split at h
      · next text u hx =>
          cases h
          exact Nat.lt_of_lt_of_le (weight_lexeme hm hx) (weight_lookAhead hl)
      · cases h

theorem weight_cut_none {r s : FragmentReader} (h : cut r = .ok none s) :
    s.weight ≤ r.weight := by
  unfold cut at h
  split at h
  · cases h
  · next t hl => cases h; exact weight_lookAhead hl
  · split at h <;> cases h

theorem weight_next {r s : FragmentReader} {f : Fragment} (h : next r = .ok (some f) s) :
    s.weight < r.weight := by
  unfold next at h
  split at h
  · next g hg => cases h; simp [weight, hg]
  · exact weight_cut h

theorem peek_held {r s : FragmentReader} {f : Fragment} (h : peek r = .ok (some f) s) :
    s.weight ≤ r.weight ∧ s.held = some f := by
  unfold peek at h
  split at h
  · next g hg => cases h; exact ⟨Nat.le_refl _, hg⟩
  · next hg =>
      split at h
      · next g t hc =>
          cases h
          have := weight_cut hc
          refine ⟨?_, rfl⟩
          simp only [weight, Option.isSome_some, if_true] at this ⊢
          split at this <;> omega
      · cases h

theorem weight_peek {r s : FragmentReader} {f : Option Fragment} (h : peek r = .ok f s) :
    s.weight ≤ r.weight := by
  cases f with
  | some f => exact (peek_held h).1
  | none =>
      unfold peek at h
      split at h
      · cases h
      · next hg =>
          split at h
          · next g t hc =>
              cases h
              have := weight_cut_none hc
              simp only [weight, Option.isSome_none] at this ⊢
              split at this <;> simp at * <;> omega
          · cases h

/-! ## Whole runs -/

structure Run where
  fragments : List Fragment
  failure : Option ReadFailure
  reader : FragmentReader

/-- Hands out fragments up to the end of the input or the first failure. -/
def drain (r : FragmentReader) : Run :=
  match _h : next r with
  | .error cause s => ⟨[], some cause, s⟩
  | .ok none s => ⟨[], none, s⟩
  | .ok (some f) s =>
      let rest := drain s
      { rest with fragments := f :: rest.fragments }
termination_by r.weight
decreasing_by exact weight_next _h

def nextSolid (r : FragmentReader) :
    EStateM.Result ReadFailure FragmentReader (Option Fragment) :=
  match _h : next r with
  | .error cause s => .error cause s
  | .ok none s => .ok none s
  | .ok (some f) s => if f.isBlank then nextSolid s else .ok (some f) s
termination_by r.weight
decreasing_by exact weight_next _h

theorem weight_nextSolid {r s : FragmentReader} {f : Fragment}
    (h : nextSolid r = .ok (some f) s) : s.weight < r.weight := by
  fun_induction nextSolid r with
  | case1 r cause t hn => cases h
  | case2 r t hn => cases h
  | case3 r g t hn hb ih => exact Nat.lt_trans (ih h) (weight_next hn)
  | case4 r g t hn hb => cases h; exact weight_next hn

end FragmentReader

end SoliditySource
