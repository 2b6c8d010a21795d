import SoliditySource.Proofs.Source.Failures
import SoliditySource.Proofs.Source.Signal

/-! # The way a source is buffered makes no difference

Bytes may arrive in any chunks, with any number of interruptions around them. Every
session on a reader of such a source gives the answers it gives when all bytes are at
hand from the start, and no answer is an interruption.
-/

namespace SoliditySource

/-! ## Answers of a buffer -/

namespace Buffer

theorem readRune_interruption {cause : ReadFailure} (hi : cause.isInterruption = true)
    (later : List Chunk) : readRune ⟨.failure cause :: later⟩ = readRune ⟨later⟩ := by
  rw [readRune, gather, dif_pos (by decide)]
  show (if cause.isInterruption then gather [] 1 ⟨later⟩ else (.fault cause, ⟨later⟩)) = _
  rw [hi, if_pos rfl]
  rfl

theorem readRune_dropWhile (chunks : List Chunk) :
    readRune ⟨chunks.dropWhile Chunk.isInterruption⟩ = readRune ⟨chunks⟩ := by
  induction chunks with
  | nil => rfl
  | cons chunk later ih =>
      rw [List.dropWhile_cons]
      split
      · next hi =>
          cases chunk with
          | data bytes => simp [Chunk.isInterruption] at hi
          | failure cause => rw [ih, readRune_interruption hi]
      · rfl

theorem readRune_nil : readRune ⟨[]⟩ = (.pause, ⟨[]⟩) := by
  rw [readRune, gather, dif_pos (by decide)]
  rfl

/-- A byte that starts no rune is not used up. -/
theorem readRune_stuck {first : UInt8} {more : List UInt8} (later : List Chunk)
    (hn : Utf8.following first = none) :
    readRune ⟨.data (first :: more) :: later⟩ =
      (.fault .malformed, ⟨.data (first :: more) :: later⟩) := by
  rw [readRune, gather, dif_pos (by decide)]
  split
  · next hf => simp [fill] at hf
  · next hf => simp [fill] at hf
  · next x xs rest hf =>
      simp only [fill, Prod.mk.injEq, Filling.bytes.injEq] at hf
      obtain ⟨⟨rfl, rfl⟩, rfl⟩ := hf
      split
      · rfl
      · next hw => simp [widthOf, hn] at hw

/-- An interruption is never the answer. -/
theorem gather_fault {held : List UInt8} {width : Nat} {b rest : Buffer} {cause : ReadFailure}
    (h : b.gather held width = (.fault cause, rest)) : cause.isInterruption = false := by
  fun_induction gather held width b with
  | case1 held width b hw cause' rest' hf hi ih => exact ih h
  | case2 held width b hw cause' rest' hf hi =>
      cases h
      simpa using hi
  | case3 held width b hw rest' hf =>
      split at h
      · cases h
      · cases h; rfl
  | case4 held width b hw first more rest' hf hwide => cases h; rfl
  | case5 held width b hw first more rest' hf wide hwide n ih => exact ih h
  | case6 held width b hw =>
      unfold Delivery.ofBytes at h
      split at h
      · cases h
      · cases h; rfl

end Buffer

namespace Feed

theorem ofBuffer_blocked {b : Buffer} {chunk : Chunk} {later : List Chunk}
    (hb : b.chunks.dropWhile Chunk.isInterruption = chunk :: later)
    (hs : chunk.isStuck = true) : ofBuffer b = blocked := by
  rw [ofBuffer]
  split
  · next hn => cases hb.symm.trans hn
  · next hc => cases hb.symm.trans hc; rw [dif_pos hs]

/-- A feed answers what its buffer answers, request by request. -/
theorem pull_ofBuffer (b : Buffer) :
    (ofBuffer b).pull = (b.readRune.1, ofBuffer b.readRune.2) := by
  have hd := Buffer.readRune_dropWhile b.chunks
  cases hb : b.chunks.dropWhile Chunk.isInterruption with
  | nil =>
      have hnil : ofBuffer ⟨[]⟩ = finished := by rw [ofBuffer]; rfl
      rw [hb, Buffer.readRune_nil] at hd
      rw [← hd, hnil, ofBuffer]
      split
      · rfl
      · next hc => cases hb.symm.trans hc
  | cons chunk later =>
      rw [hb] at hd
      by_cases hs : chunk.isStuck = true
      · obtain ⟨first, more, rfl, hn⟩ := Chunk.isStuck_iff.mp hs
        rw [Buffer.readRune_stuck later hn] at hd
        have hstuck : ofBuffer ⟨.data (first :: more) :: later⟩ = blocked := ofBuffer_blocked rfl hs
        rw [← hd, ofBuffer_blocked hb hs, hstuck]
        rfl
      · rw [ofBuffer]
        split
        · next hc => cases hb.symm.trans hc
        · next hc => cases hb.symm.trans hc; rw [dif_neg hs, hd]; rfl

/-- A feed passes over all interruptions, because no request for a rune is answered by one. -/
theorem failsOnly_ofBuffer (b : Buffer) :
    (ofBuffer b).FailsOnly (·.isInterruption = false) := by
  have hpull : ∀ feed, (∃ b, feed = ofBuffer b) →
      (∃ b, feed.pull.2 = ofBuffer b) ∧
        ∀ cause, feed.pull.1 = .fault cause → cause.isInterruption = false := by
    rintro _ ⟨b, rfl⟩
    rw [pull_ofBuffer]
    exact ⟨⟨b.readRune.2, rfl⟩, fun cause hc => Buffer.gather_fault (Prod.ext hc rfl)⟩
  exact failsOnly_of_pull hpull ⟨b, rfl⟩

end Feed

/-! ## Chunks that hold the same bytes -/

/-- The chunks hold the bytes, cut anywhere, with interruptions anywhere. -/
inductive Chunk.Cut : List Chunk → List UInt8 → Prop where
  | done : Cut [] []
  | data {piece bytes : List UInt8} {chunks : List Chunk} (hp : piece ≠ [])
      (h : Cut chunks bytes) : Cut (.data piece :: chunks) (piece ++ bytes)
  | interruption {cause : ReadFailure} {bytes : List UInt8} {chunks : List Chunk}
      (hi : cause.isInterruption = true) (h : Cut chunks bytes) :
      Cut (.failure cause :: chunks) bytes

theorem Signal.ofChunks_cut {chunks : List Chunk} {bytes : List UInt8}
    (h : Chunk.Cut chunks bytes) : ofChunks chunks = bytes.map .byte := by
  induction h with
  | done => rfl
  | data hp _ ih => rw [ofChunks_data hp, ih, List.map_append]
  | interruption hi _ ih => rw [ofChunks, if_pos hi, ih]

/-- Cut bytes are delivered as if they were at hand from the start. -/
theorem Feed.ofChunks_cut {chunks : List Chunk} {bytes : List UInt8}
    (h : Chunk.Cut chunks bytes) : ofChunks chunks = ofBytes bytes := by
  rw [ofBytes, ofChunks, ofChunks, ofBuffer_eq_assemble, ofBuffer_eq_assemble,
    Signal.ofChunks_cut h, Signal.ofChunks_bytes]

/-! ## Sessions -/

/-- What holds of a reader and is kept by each step holds of the errors of all answers. -/
theorem answers_error {ρ σ ε α : Type} {step : σ → EStateM ε ρ α} {position : ρ → Position}
    {inv : ρ → Prop} {p : ε → Prop} (hstep : ∀ s r, inv r → Ends inv p (step s r))
    {steps : List σ} {r : ρ} (hr : inv r) {answer : Answer ε α} {e : ε}
    (ha : answer ∈ answers step position steps r) (he : answer.result = .error e) : p e := by
  induction steps generalizing r with
  | nil => cases ha
  | cons s steps ih =>
      have hs := hstep s r hr
      rw [answers] at ha
      cases hx : step s r with
      | ok a t =>
          rw [hx, List.mem_cons] at ha
          rcases ha with rfl | ha
          · cases he
          · exact ih (hs.ok hx) ha
      | error e' t =>
          rw [hx, List.mem_cons] at ha
          rcases ha with rfl | ha
          · cases he; exact (hs.error hx).1
          · exact ih (hs.error hx).2 ha

variable {p : ReadFailure → Prop}

theorem FragmentReader.ends_step {r : FragmentReader} (h : r.FailsOnly p) (s : FragmentStep) :
    Ends (FailsOnly p) p (step s r) := by
  cases s with
  | next => exact ends_next h
  | peek => exact ends_peek h

theorem TokenReader.ends_step {r : TokenReader} (h : r.FailsOnly p) (s : TokenStep) :
    Ends (FailsOnly p) (SourceError.FailsOnly p) (step s r) := by
  have hmap : ∀ x : EStateM SourceError TokenReader Token,
      Ends (FailsOnly p) (SourceError.FailsOnly p) (x r) →
      Ends (FailsOnly p) (SourceError.FailsOnly p) (((fun t => [t]) <$> x) r) := by
    intro x hx
    show Ends _ _ (EStateM.map _ x r)
    unfold EStateM.map
    split
    · next hok => exact hx.ok hok
    · next herr => exact hx.error herr
  cases s with
  | next => exact hmap _ (ends_next h)
  | peek => exact hmap _ (ends_peek h)
  | all => exact ends_all h

theorem TokenReader.readings_error {r : TokenReader} (h : r.FailsOnly p)
    {productions : List (Σ α : Type, Production α)} {reading : Reading} {e : SourceError}
    (hr : reading ∈ r.readings productions) (he : reading.result = .error e) :
    e.FailsOnly p := by
  induction productions generalizing r with
  | nil => cases hr
  | cons entry rest ih =>
      have hx := Rule.ends_run (entry.2.rule (r.weight + 1)) h
      rw [readings, List.mem_cons] at hr
      rcases hr with rfl | hr
      · exact hx.2 e he
      · exact ih hx.1 hr

theorem FragmentReader.failsOnly_ofChunks (chunks : List Chunk) :
    (ofFeed (.ofChunks chunks)).FailsOnly (·.isInterruption = false) :=
  Feed.failsOnly_ofBuffer ⟨chunks⟩

theorem TokenReader.failsOnly_ofChunks (chunks : List Chunk) :
    (ofFeed (.ofChunks chunks)).FailsOnly (·.isInterruption = false) :=
  FragmentReader.failsOnly_ofChunks chunks

theorem SourceError.ne_interruption {e : SourceError} {cause : ReadFailure}
    (h : e.FailsOnly (·.isInterruption = false)) (hi : cause.isInterruption = true) :
    e ≠ .unreadable cause := by
  rintro rfl
  exact Bool.false_ne_true (h.symm.trans hi)

/-- Sessions of fragments, of tokens and of constructs, going on after errors, do not tell
how the bytes were cut and where reading them was interrupted; and no step of them ends
in an interruption. -/
theorem sessions_ofChunks_cut {chunks : List Chunk} {bytes : List UInt8}
    (h : Chunk.Cut chunks bytes) :
    (∀ steps, (FragmentReader.ofFeed (.ofChunks chunks)).session steps =
      (FragmentReader.ofFeed (.ofBytes bytes)).session steps) ∧
    (∀ steps, (TokenReader.ofFeed (.ofChunks chunks)).session steps =
      (TokenReader.ofFeed (.ofBytes bytes)).session steps) ∧
    (∀ productions, (TokenReader.ofFeed (.ofChunks chunks)).readings productions =
      (TokenReader.ofFeed (.ofBytes bytes)).readings productions) ∧
    ∀ cause : ReadFailure, cause.isInterruption = true →
      (∀ steps, ∀ answer ∈ (FragmentReader.ofFeed (.ofChunks chunks)).session steps,
        answer.result ≠ .error cause) ∧
      (∀ steps, ∀ answer ∈ (TokenReader.ofFeed (.ofChunks chunks)).session steps,
        answer.result ≠ .error (.unreadable cause)) ∧
      (∀ productions,
        ∀ reading ∈ (TokenReader.ofFeed (.ofChunks chunks)).readings productions,
          reading.result ≠ .error (.unreadable cause)) := by
  have hfeed := Feed.ofChunks_cut h
  have hfragments := FragmentReader.failsOnly_ofChunks chunks
  have htokens := TokenReader.failsOnly_ofChunks chunks
  refine ⟨fun steps => by rw [hfeed], fun steps => by rw [hfeed],
    fun productions => by rw [hfeed], fun cause hi => ⟨?_, ?_, ?_⟩⟩
  · intro steps answer ha he
    have hc : cause.isInterruption = false :=
      answers_error (fun s r hr => FragmentReader.ends_step hr s) hfragments ha he
    rw [hi] at hc
    exact Bool.noConfusion hc
  · intro steps answer ha he
    have hc := answers_error (fun s r hr => TokenReader.ends_step hr s) htokens ha he
    exact SourceError.ne_interruption hc hi rfl
  · intro productions reading hr he
    have hc := TokenReader.readings_error htokens hr he
    exact SourceError.ne_interruption hc hi rfl

/-- A rune of two bytes that come apart, with an interruption between them. -/
theorem sessions_ofChunks_cut_within_rune :
    Chunk.Cut [.data [0xC3], .failure ⟨.interrupted, "try again"⟩, .data [0xA9, 0x3B]]
      [0xC3, 0xA9, 0x3B] ∧
    (FragmentReader.ofFeed (.ofChunks
        [.data [0xC3], .failure ⟨.interrupted, "try again"⟩, .data [0xA9, 0x3B]])).session
        [.peek, .next, .next, .next] =
      (FragmentReader.ofFeed (.ofBytes [0xC3, 0xA9, 0x3B])).session
        [.peek, .next, .next, .next] :=
  have hcut : Chunk.Cut
      [.data [0xC3], .failure ⟨.interrupted, "try again"⟩, .data [0xA9, 0x3B]]
      [0xC3, 0xA9, 0x3B] :=
    .data (by decide) (.interruption rfl (.data (by decide) .done))
  ⟨hcut, (sessions_ofChunks_cut hcut).1 _⟩

end SoliditySource
