import SoliditySource.Proofs.Grammar.Limits
import SoliditySource.Proofs.Source.Breaking
import SoliditySource.Proofs.Source.Buffering

/-! # Sources that break off

A source that fails after some bytes is read like every source that goes on after them, up to
the point where something hangs on what comes next. There reading ends in the failure, as it
was reported, and not in an error about the source.
-/

namespace SoliditySource

/-! ## Feeds -/

theorem Signal.ofChunks_append (front back : List Chunk) :
    ofChunks (front ++ back) = ofChunks front ++ ofChunks back := by
  induction front with
  | nil => rfl
  | cons chunk front ih =>
      rw [List.cons_append]
      cases chunk with
      | data bytes =>
          cases bytes with
          | nil => simp [ofChunks, ih]
          | cons b bs => simp [ofChunks, ih]
      | failure cause =>
          rw [ofChunks, ofChunks]
          split <;> simp [ih]

variable {cause : ReadFailure}

/-- By induction on the bytes: a rune that they leave unfinished is given up with the failure. -/
theorem Feed.assemble_breaksOff (held bytes : List UInt8) (missing : Nat)
    (later rest : List Signal) :
    (assemble held missing (bytes.map .byte ++ .fault cause :: later)).BreaksOff cause
      (assemble held missing (bytes.map .byte ++ rest)) := by
  induction bytes generalizing held missing with
  | nil => exact .failed _ _
  | cons b bs ih =>
      simp only [List.map_cons, List.cons_append, assemble]
      by_cases hh : held = []
      · simp only [if_pos hh]
        cases Utf8.following b with
        | none => exact .same _
        | some n =>
            cases n with
            | zero => exact .next _ (ih _ _)
            | succ n => exact ih _ _
      · simp only [if_neg hh]
        cases missing with
        | zero => exact .next _ (ih _ _)
        | succ n =>
            cases n with
            | zero => exact .next _ (ih _ _)
            | succ n => exact ih _ _

/-- Cut bytes with a failure behind them, and any cut of these bytes and more. -/
theorem Feed.ofChunks_breaksOff {chunks more : List Chunk} {bytes rest : List UInt8}
    (h : Chunk.Cut chunks bytes) (hc : cause.isInterruption = false) (later : List Chunk)
    (hm : Chunk.Cut more (bytes ++ rest)) :
    (ofChunks (chunks ++ .failure cause :: later)).BreaksOff cause (ofChunks more) := by
  rw [ofChunks, ofChunks, ofBuffer_eq_assemble, ofBuffer_eq_assemble, Signal.ofChunks_append,
    Signal.ofChunks_cut h, Signal.ofChunks_cut hm, Signal.ofChunks, if_neg (by simp [hc]),
    List.map_append]
  exact assemble_breaksOff [] bytes 0 _ _

/-! ## Sessions -/

/-- Steps that match one by one give the same answers unless one of them stops. -/
theorem answers_of_matches {ρ σ ε α : Type} {step : σ → EStateM ε ρ α}
    {position : ρ → Position} {near : ρ → ρ → Prop} {stopped : ε}
    (hstep : ∀ {r r'}, near r r' → ∀ s, Matches near stopped (step s r) (step s r'))
    (hposition : ∀ {r r'}, near r r' → position r = position r') {r r' : ρ} (h : near r r')
    (steps : List σ) :
    (∃ answer ∈ answers step position steps r, answer.result = .error stopped) ∨
      answers step position steps r' = answers step position steps r := by
  induction steps generalizing r r' with
  | nil => exact .inr rfl
  | cons s steps ih =>
      have hs := hstep h s
      rw [answers, answers]
      generalize step s r = x, step s r' = y at hs ⊢
      cases hs with
      | stop t y => exact .inl ⟨_, List.mem_cons_self, rfl⟩
      | ok a ht =>
          cases ih ht with
          | inl hstop =>
              obtain ⟨answer, hmem, he⟩ := hstop
              exact .inl ⟨answer, List.mem_cons_of_mem _ hmem, he⟩
          | inr hsame => exact .inr (by simp only [hsame, hposition ht])
      | error e ht =>
          cases ih ht with
          | inl hstop =>
              obtain ⟨answer, hmem, he⟩ := hstop
              exact .inl ⟨answer, List.mem_cons_of_mem _ hmem, he⟩
          | inr hsame => exact .inr (by simp only [hsame, hposition ht])

theorem FragmentReader.matches_step {r r' : FragmentReader} (h : r.BreaksOff cause r')
    (s : FragmentStep) : Matches (BreaksOff cause) cause (step s r) (step s r') := by
  cases s with
  | next => exact matches_next h
  | peek => exact matches_peek h

theorem TokenReader.matches_step {r r' : TokenReader} (h : r.BreaksOff cause r')
    (s : TokenStep) : Matches (BreaksOff cause) (.unreadable cause) (step s r) (step s r') := by
  have hmap : ∀ x : EStateM SourceError TokenReader Token,
      Matches (BreaksOff cause) (.unreadable cause) (x r) (x r') →
      Matches (BreaksOff cause) (.unreadable cause) (((fun t => [t]) <$> x) r)
        (((fun t => [t]) <$> x) r') := by
    intro x hx
    show Matches _ _ (EStateM.map _ x r) (EStateM.map _ x r')
    unfold EStateM.map
    generalize x r = y, x r' = z at hx ⊢
    cases hx with
    | stop s y => exact .stop _ _
    | ok t hs => exact .ok _ hs
    | error e hs => exact .error _ hs
  cases s with
  | next => exact hmap _ (matches_next h)
  | peek => exact hmap _ (matches_peek h)
  | all => exact matches_all h

/-- One limit that is enough for both readers makes the two readings runs of one rule. -/
theorem TokenReader.parse_breaksOff {r r' : TokenReader} (h : r.BreaksOff cause r') {α : Type}
    (production : Production α) :
    (r.parse production).result = .error (.unreadable cause) ∨
      (r'.parse production).result = (r.parse production).result := by
  have hlimit : r.weight < max r.weight r'.weight + 1 := by omega
  have hlimit' : r'.weight < max r.weight r'.weight + 1 := by omega
  rw [parse_eq_run r production hlimit, parse_eq_run r' production hlimit']
  cases Rule.run_breaksOff (production.rule (max r.weight r'.weight + 1)) h with
  | inl hstop => exact .inl hstop
  | inr hsame => exact .inr hsame.1.symm

/-- A source fails right after some bytes, which may be cut anywhere. Reading a construct from
it, or a session of tokens or of fragments, ends in the very failure that was reported, or it
gives what it gives on every source that starts with these bytes, cut anywhere too. -/
theorem readings_breakOff {chunks : List Chunk} {bytes : List UInt8}
    (h : Chunk.Cut chunks bytes) {cause : ReadFailure} (hc : cause.isInterruption = false)
    (later : List Chunk) :
    let failing := Feed.ofChunks (chunks ++ .failure cause :: later)
    (∀ {α : Type} (production : Production α),
      ((TokenReader.ofFeed failing).parse production).result = .error (.unreadable cause) ∨
      ∀ rest more, Chunk.Cut more (bytes ++ rest) →
        ((TokenReader.ofFeed (.ofChunks more)).parse production).result =
          ((TokenReader.ofFeed failing).parse production).result) ∧
    (∀ steps : List TokenStep,
      (∃ answer ∈ (TokenReader.ofFeed failing).session steps,
        answer.result = .error (.unreadable cause)) ∨
      ∀ rest more, Chunk.Cut more (bytes ++ rest) →
        (TokenReader.ofFeed (.ofChunks more)).session steps =
          (TokenReader.ofFeed failing).session steps) ∧
    (∀ steps : List FragmentStep,
      (∃ answer ∈ (FragmentReader.ofFeed failing).session steps,
        answer.result = .error cause) ∨
      ∀ rest more, Chunk.Cut more (bytes ++ rest) →
        (FragmentReader.ofFeed (.ofChunks more)).session steps =
          (FragmentReader.ofFeed failing).session steps) := by
  intro failing
  have hfeed : ∀ rest more, Chunk.Cut more (bytes ++ rest) →
      failing.BreaksOff cause (.ofChunks more) :=
    fun rest more hm => Feed.ofChunks_breaksOff h hc later hm
  have htokens : ∀ rest more, Chunk.Cut more (bytes ++ rest) →
      (TokenReader.ofFeed failing).BreaksOff cause (.ofFeed (.ofChunks more)) :=
    fun rest more hm => .mk (.mk (hfeed rest more hm) [] .start none) none
  refine ⟨fun production => ?_, fun steps => ?_, fun steps => ?_⟩
  · refine or_iff_not_imp_left.mpr fun hstop rest more hm => ?_
    exact (TokenReader.parse_breaksOff (htokens rest more hm) production).resolve_left hstop
  · refine or_iff_not_imp_left.mpr fun hstop rest more hm => ?_
    exact (answers_of_matches TokenReader.matches_step TokenReader.BreaksOff.position_eq
      (htokens rest more hm) steps).resolve_left hstop
  · refine or_iff_not_imp_left.mpr fun hstop rest more hm => ?_
    have hfragments := FragmentReader.BreaksOff.mk (hfeed rest more hm) [] .start none
    exact (answers_of_matches FragmentReader.matches_step FragmentReader.BreaksOff.position_eq
      hfragments steps).resolve_left hstop

/-- A semicolon, the first byte of a rune, and a failure: the semicolon stands whatever comes
next, because no operator starts with it. -/
theorem readings_breakOff_within_rune :
    Chunk.Cut [.data [0x3B, 0xC3]] [0x3B, 0xC3] ∧
    ReadFailure.isInterruption ⟨.brokenPipe, "gone"⟩ = false ∧
    ∀ rest more, Chunk.Cut more ([0x3B, 0xC3] ++ rest) →
      (FragmentReader.ofFeed (.ofChunks more)).session [.next] =
        [⟨.ok (some ⟨⟨1, 1⟩, [';']⟩), ⟨1, 2⟩⟩] := by
  have hcut : Chunk.Cut [.data [0x3B, 0xC3]] [0x3B, 0xC3] := .data (by decide) .done
  have hlasting : ReadFailure.isInterruption ⟨.brokenPipe, "gone"⟩ = false := rfl
  have hfailing : (FragmentReader.ofFeed (.ofChunks ([.data [0x3B, 0xC3]] ++
      .failure ⟨.brokenPipe, "gone"⟩ :: []))).session [.next] =
        [⟨.ok (some ⟨⟨1, 1⟩, [';']⟩), ⟨1, 2⟩⟩] := by
    rw [Feed.ofChunks, Feed.ofBuffer_eq_assemble]
    rfl
  refine ⟨hcut, hlasting, fun rest more hm => ?_⟩
  cases (readings_breakOff hcut hlasting []).2.2 [.next] with
  | inl hstop =>
      rw [hfailing] at hstop
      simp at hstop
  | inr hsame => rw [hsame rest more hm, hfailing]

/-- The fragment after it hangs on the bytes that are missing. -/
example :
    ((FragmentReader.ofFeed (.ofChunks [.data [0x3B, 0xC3],
      .failure ⟨.brokenPipe, "gone"⟩])).session [.next, .next]).map Answer.result =
        [.ok (some ⟨⟨1, 1⟩, [';']⟩), .error ⟨.brokenPipe, "gone"⟩] := by
  cbv

end SoliditySource
