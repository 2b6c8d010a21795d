import SoliditySource.Proofs.Fragment.Account
import SoliditySource.Proofs.Fragment.Partition
import SoliditySource.Proofs.Session.Peeking
import SoliditySource.Proofs.Source.Buffering
import SoliditySource.Proofs.Source.Text
import SoliditySource.Proofs.Source.WellFormed

/-! # Fragments of bytes

Bytes deliver the runes of their longest well-formed prefix, and then the end of the source or a
failure. Fragments are cut off the runes in front of the failure, which strikes in the middle of
whatever is being cut off. Where no rune can start, a reader that failed fails again and again and
does not move.
-/

namespace SoliditySource

/-! ## Feeds -/

namespace Feed

/-- The feed that delivers the runes and goes on with `tail`. -/
def before : (runes : List Char) → (tail : Feed) → Feed
  | [], tail => tail
  | c :: cs, tail => next (.rune c) (before cs tail)

theorem before_finished (cs : List Char) : before cs finished = runes cs := by
  induction cs with
  | nil => rfl
  | cons c cs ih => rw [before, runes, ih]

theorem assemble_encode (text : List Char) (rest : List Signal) :
    assemble [] 0 ((Utf8.encode text).map .byte ++ rest) = before text (assemble [] 0 rest) := by
  induction text with
  | nil => rfl
  | cons c text ih =>
      rw [Utf8.encode_cons, List.map_append, List.append_assoc, assemble_rune, ih, before]

/-- Where no rune starts, the first byte is never got past, or some bytes are lost. -/
theorem assemble_broken {first : UInt8} {more : List UInt8}
    (h : ∀ c, ¬ String.utf8EncodeChar c <+: first :: more) :
    (assemble [] 0 ((first :: more).map .byte)).pull.1 = .fault .malformed ∧
      (Utf8.following first = none → assemble [] 0 ((first :: more).map .byte) = blocked) := by
  have hbytes : ∀ bytes, bytes <+: first :: more → Delivery.ofBytes bytes = .fault .malformed := by
    intro bytes hprefix
    rw [Delivery.ofBytes]
    split
    · next c hc => exact absurd (Utf8.decode?_eq_some_iff.mp hc ▸ hprefix) (h c)
    · rfl
  rw [List.map_cons, assemble, if_pos rfl]
  split
  · exact ⟨rfl, fun _ => rfl⟩
  · next hf => exact ⟨hbytes [first] ⟨more, rfl⟩, fun hn => by cases hf.symm.trans hn⟩
  · next n hf =>
      refine ⟨?_, fun hn => by cases hf.symm.trans hn⟩
      have hne : [first] ≠ [] := List.cons_ne_nil first []
      by_cases hle : n + 1 ≤ more.length
      · have hwhole := assemble_whole hne (Nat.succ_pos n) hle []
        rw [List.append_nil] at hwhole
        rw [hwhole]
        exact hbytes _ ((List.prefix_cons_inj first).mpr (List.take_prefix _ _))
      · have hmore := assemble_more hne (Nat.lt_of_not_le hle) []
        rw [List.append_nil] at hmore
        rw [hmore]
        rfl

/-- Bytes are delivered as the runes of their longest well-formed prefix; then the source ends or
a failure comes. -/
theorem ofBytes_decodes {bytes : List UInt8} {text : List Char} (h : Utf8.Decodes bytes text) :
    (Utf8.WellFormed bytes → bytes = Utf8.encode text ∧ ofBytes bytes = runes text) ∧
    (¬ Utf8.WellFormed bytes → ∃ tail after, ofBytes bytes = before text tail ∧
      tail.pull = (.fault .malformed, after) ∧
      ∀ first rest, bytes = Utf8.encode text ++ first :: rest → Utf8.following first = none →
        tail = blocked) := by
  obtain ⟨rest, rfl, hrest⟩ := Utf8.decodes_iff.mp h
  have hfeed : ofBytes (Utf8.encode text ++ rest) =
      before text (assemble [] 0 (rest.map .byte)) := by
    rw [ofBytes, ofChunks, ofBuffer_eq_assemble, Signal.ofChunks_bytes, List.map_append,
      assemble_encode]
  rw [Utf8.wellFormed_append_iff hrest, hfeed]
  refine ⟨?_, fun hne => ?_⟩
  · rintro rfl
    exact ⟨List.append_nil _, before_finished text⟩
  · obtain ⟨first, more, rfl⟩ := List.exists_cons_of_ne_nil hne
    obtain ⟨hfault, hblocked⟩ := assemble_broken hrest
    refine ⟨_, _, rfl, Prod.ext hfault rfl, fun first' rest heq hn => hblocked ?_⟩
    rw [(List.cons.inj (List.append_cancel_left heq)).1]
    exact hn

end Feed

namespace FragmentReader

variable {r s : FragmentReader} {tail after : Feed} {cs : List Char} {cause : ReadFailure}

/-! ## Up to a failure -/

/-- The reader has the runes ahead of it and then `tail`, and holds no fragment. -/
structure UpTo (r : FragmentReader) (tail : Feed) (cs : List Char) : Prop where
  held : r.held = none
  runes : ∃ later, r.feed = .before later tail ∧ r.pending ++ later = cs

/-- A step succeeds as `goes` says, or comes to `tail` and fails there. -/
def Reaches {α : Type} (tail : Feed) (goes : α → FragmentReader → Prop) :
    EStateM.Result ReadFailure FragmentReader α → Prop
  | .ok a s => goes a s
  | .error cause s => tail.pull = (.fault cause, s.feed) ∧ s.held = none

/-- The runes of the text are used up. -/
def Uses (tail : Feed) (cs text : List Char) (s : FragmentReader) : Prop :=
  ∃ rest, cs = text ++ rest ∧ s.UpTo tail rest

theorem reaches_lookAhead (htail : tail.pull = (.fault cause, after)) (h : r.UpTo tail cs)
    (n : Nat) : Reaches tail (fun a s => a ≠ none ∧ s.UpTo tail cs) (lookAhead n r) := by
  obtain ⟨hheld, later, hfeed, hcs⟩ := h
  unfold lookAhead
  split
  · exact ⟨by simp, hheld, later, hfeed, hcs⟩
  · cases later with
    | nil =>
        rw [hfeed, Feed.before, htail]
        exact ⟨htail, hheld⟩
    | cons c later =>
        rw [hfeed, Feed.before, Feed.pull]
        exact ⟨by simp, hheld, later, rfl, by simpa using hcs⟩

theorem reaches_longestOperator (htail : tail.pull = (.fault cause, after)) (h : r.UpTo tail cs)
    (n : Nat) (op : List Char) :
    Reaches tail (fun _ s => s.UpTo tail cs) (longestOperator n op r) := by
  induction n generalizing op r with
  | zero => exact h
  | succ n ih =>
      unfold longestOperator
      split
      · exact h
      · have hl := reaches_lookAhead htail h op.length
        simp only [bind, EStateM.bind]
        cases hx : lookAhead op.length r with
        | error e s =>
            rw [hx] at hl
            exact hl
        | ok a s =>
            rw [hx] at hl
            obtain ⟨hne, hs⟩ := hl
            cases a with
            | none => exact absurd rfl hne
            | some c =>
                dsimp only
                split
                · exact ih hs _
                · exact hs

theorem reaches_takeRunes (h : r.UpTo tail cs) (n : Nat) :
    Reaches tail (Uses tail cs) (takeRunes n r) := by
  obtain ⟨hheld, later, hfeed, rfl⟩ := h
  refine ⟨r.pending.drop n ++ later, ?_, hheld, later, hfeed, rfl⟩
  rw [← List.append_assoc, List.take_append_drop]

/-- Using up the rune that was looked at. -/
theorem UpTo.rune {c : Char} (hl : lookAhead 0 r = .ok (some c) s) (h : s.UpTo tail cs) :
    ∃ rest, cs = c :: rest ∧
      UpTo { s with pending := s.pending.tail, cursor := s.cursor.after c } tail rest := by
  obtain ⟨hheld, later, hfeed, rfl⟩ := h
  obtain ⟨more, hmore⟩ := head_lookAhead hl
  exact ⟨more ++ later, by rw [hmore, List.cons_append], hheld, later, hfeed, by rw [hmore]; rfl⟩

theorem Uses.cons {c : Char} {rest text : List Char} (h : Uses tail rest text s) :
    Uses tail (c :: rest) (c :: text) s := by
  obtain ⟨back, rfl, hs⟩ := h
  exact ⟨back, rfl, hs⟩

theorem reaches_takeWhile (htail : tail.pull = (.fault cause, after)) (h : r.UpTo tail cs)
    (p : Char → Bool) : Reaches tail (Uses tail cs) (takeWhile p r) := by
  have hlook := fun {r : FragmentReader} {cs : List Char} (h : r.UpTo tail cs) =>
    reaches_lookAhead htail h 0
  fun_induction takeWhile p r generalizing cs with
  | case1 r e s hl =>
      have hx := hlook h
      rwa [hl] at hx
  | case2 r s hl =>
      have hx := hlook h
      rw [hl] at hx
      exact absurd rfl hx.1
  | case3 r c s hl hp text t ht ih =>
      have hx := hlook h
      rw [hl] at hx
      obtain ⟨rest, rfl, hrest⟩ := hx.2.rune hl
      have hmore := ih hrest
      rw [ht] at hmore
      exact hmore.cons
  | case4 r c s hl hp e t ht ih =>
      have hx := hlook h
      rw [hl] at hx
      obtain ⟨rest, rfl, hrest⟩ := hx.2.rune hl
      have hmore := ih hrest
      rwa [ht] at hmore
  | case5 r c s hl hp =>
      have hx := hlook h
      rw [hl] at hx
      exact ⟨cs, rfl, hx.2⟩

theorem reaches_lexeme (htail : tail.pull = (.fault cause, after)) (h : r.UpTo tail cs)
    (first : Char) : Reaches tail (Uses tail cs) (lexeme first r) := by
  unfold lexeme
  split
  · have hop := reaches_longestOperator htail h 3 [first]
    cases hx : longestOperator 3 [first] r with
    | error e s =>
        rw [hx] at hop
        exact hop
    | ok op s =>
        rw [hx] at hop
        exact reaches_takeRunes hop op.length
  · split
    · exact reaches_takeRunes h 1
    · split <;> exact reaches_takeWhile htail h _

/-- A fragment is cut off the runes in front of the failure, or it comes to fail. -/
theorem reaches_cut (htail : tail.pull = (.fault cause, after)) (h : r.UpTo tail cs) :
    Reaches tail (fun f s => ∃ g, f = some g ∧ Uses tail cs g.text s) (cut r) := by
  have hl := reaches_lookAhead htail h 0
  unfold cut
  cases hx : lookAhead 0 r with
  | error e s =>
      rw [hx] at hl
      exact hl
  | ok a s =>
      rw [hx] at hl
      obtain ⟨hne, hs⟩ := hl
      cases a with
      | none => exact absurd rfl hne
      | some first =>
          have hf := reaches_lexeme htail hs first
          dsimp only
          cases hy : lexeme first s with
          | error e t =>
              rw [hy] at hf
              exact hf
          | ok text t =>
              rw [hy] at hf
              exact ⟨_, rfl, hf⟩

theorem drain_error (h : next r = .error cause s) : drain r = ⟨[], some cause, s⟩ := by
  rw [drain.eq_def]
  split <;> rename_i h' <;> cases h.symm.trans h'
  rfl

theorem next_of_held_none (h : r.held = none) : next r = cut r := by rw [next, h]

/-- Handing out fragments ends with the failure. What is handed out before is in front of it, and
the reader is the one that a last attempt to cut off a fragment leaves. -/
theorem drain_upTo (htail : tail.pull = (.fault cause, after)) (h : r.UpTo tail cs) :
    ∃ last, (drain r).failure = some cause ∧ (drain r).fragments.flatMap Fragment.text <+: cs ∧
      cut last = .error cause (drain r).reader ∧ (drain r).reader.feed = after ∧
      (drain r).reader.held = none := by
  induction hn : r.weight using Nat.strongRecOn generalizing r cs with
  | _ n ih =>
      subst hn
      have hcut := reaches_cut htail h
      have hnext := next_of_held_none h.held
      cases hx : cut r with
      | error e s =>
          rw [hx] at hcut hnext
          obtain ⟨hfault, hheld⟩ := hcut
          cases hfault.symm.trans htail
          rw [drain_error hnext]
          exact ⟨r, rfl, List.nil_prefix, hx, rfl, hheld⟩
      | ok f s =>
          rw [hx] at hcut hnext
          obtain ⟨g, rfl, rest, rfl, hs⟩ := hcut
          obtain ⟨last, hfailure, hprefix, hlast⟩ := ih _ (weight_next hnext) hs rfl
          rw [drain_some hnext]
          refine ⟨last, hfailure, ?_, hlast⟩
          rw [List.flatMap_cons]
          exact (List.prefix_append_right_inj g.text).mpr hprefix

/-! ## Failing again -/

/-- Where a byte is never got past, looking behind the pending runes fails and changes
nothing. -/
theorem lookAhead_blocked (h : r.feed = .blocked) {n : Nat} (hn : r.pending[n]? = none) :
    lookAhead n r = .error .malformed r := by
  rw [lookAhead, hn, h]
  cases r
  cases h
  rfl

theorem lookAhead_pending {n : Nat} {c : Char} (h : r.pending[n]? = some c) :
    lookAhead n r = .ok (some c) r := by
  rw [lookAhead, h]

/-- An operator that could not be looked behind cannot be looked behind again. By induction on
the runes that were looked at: they are pending now. -/
theorem longestOperator_again {n : Nat} {op rest : List Char} (hr : r.pending = op ++ rest)
    (h : longestOperator n op r = .error cause s) (hs : s.feed = .blocked) :
    op <+: s.pending ∧ longestOperator n op s = .error .malformed s := by
  induction n generalizing op rest r with
  | zero => cases h
  | succ n ih =>
      unfold longestOperator at h ⊢
      split at h
      · cases h
      · next hop =>
          rw [if_neg hop]
          simp only [bind, EStateM.bind] at h ⊢
          cases hl : lookAhead op.length r with
          | error e t =>
              rw [hl] at h
              cases h
              have hpending := pending_lookAhead_error hr hl
              rw [lookAhead_blocked hs (by rw [hpending]; simp)]
              exact ⟨hpending ▸ List.prefix_rfl, rfl⟩
          | ok a t =>
              rw [hl] at h
              cases a with
              | none => cases h
              | some c =>
                  obtain ⟨rest', ht, -⟩ := pending_lookAhead_some hr hl
                  dsimp only at h
                  split at h
                  · next hc =>
                      have hgrown : t.pending = (op ++ [c]) ++ rest' := by simp [ht]
                      obtain ⟨⟨more, hmore⟩, hagain⟩ := ih hgrown h
                      rw [lookAhead_pending (c := c) (by rw [← hmore]; simp)]
                      dsimp only
                      rw [if_pos hc]
                      exact ⟨⟨c :: more, by rw [← hmore]; simp⟩, hagain⟩
                  · cases h

/-- A fragment that could not be read to its end is gone, or it is an operator whose runes are
still pending. -/
theorem lexeme_again {first : Char} {more : List Char} (hr : r.pending = first :: more)
    (h : lexeme first r = .error cause s) (hs : s.feed = .blocked) :
    s.pending = [] ∨ s.pending[0]? = some first ∧ lexeme first s = .error .malformed s := by
  unfold lexeme at h ⊢
  by_cases hsplit : Rune.isSplit first = true
  · rw [if_pos hsplit] at h ⊢
    split at h
    · cases h
    · next hop =>
        cases h
        have hpending : r.pending = [first] ++ more := hr
        obtain ⟨⟨rest, hrest⟩, hagain⟩ := longestOperator_again hpending hop hs
        exact .inr ⟨by rw [← hrest]; rfl, by rw [hagain]⟩
  · rw [if_neg hsplit] at h
    split at h
    · cases h
    · split at h
      all_goals
        obtain ⟨-, -, hnil⟩ := spends_takeWhile_error h
        exact .inl hnil

/-- A reader that failed to cut off a fragment fails again and stays as it is. -/
theorem cut_again (h : cut r = .error cause s) (hs : s.feed = .blocked) :
    cut s = .error .malformed s := by
  have hempty : s.pending = [] → cut s = .error .malformed s := by
    intro hnil
    rw [cut, lookAhead_blocked hs (by rw [hnil]; rfl)]
  unfold cut at h
  split at h
  · next hl =>
      cases h
      exact hempty (pending_lookAhead_error (List.nil_append _).symm hl)
  · cases h
  · next first t hl =>
      obtain ⟨more, hmore⟩ := head_lookAhead hl
      split at h
      · cases h
      · next hx =>
          cases h
          obtain hnil | ⟨hfirst, hagain⟩ := lexeme_again hmore hx hs
          · exact hempty hnil
          · rw [cut, lookAhead_pending hfirst]
            dsimp only
            rw [hagain]

theorem step_again (hheld : s.held = none) (hcut : cut s = .error .malformed s)
    (step : FragmentStep) : FragmentReader.step step s = .error .malformed s := by
  cases step with
  | next => exact (next_of_held_none hheld).trans hcut
  | peek => simp only [FragmentReader.step, peek, hheld, hcut]

/-- All answers of a reader that fails without changing are the same. -/
theorem session_again (h : ∀ step, FragmentReader.step step s = .error cause s)
    (steps : List FragmentStep) :
    ∀ answer ∈ s.session steps, answer = ⟨.error cause, s.position⟩ := by
  induction steps with
  | nil => exact fun _ ha => absurd ha List.not_mem_nil
  | cons step steps ih =>
      rw [session, answers_cons, h step]
      exact List.forall_mem_cons.mpr ⟨rfl, ih⟩

/-- Bytes that are cut anywhere are read as fragments without a failure just when they are
well-formed, and the fragments are then what they encode. Otherwise reading fails, and the
fragments handed out before are in front of what the longest well-formed prefix encodes. If no
rune starts with the byte behind it, all further steps fail in the same way and leave the position
where it is. -/
theorem drain_decodes {chunks : List Chunk} {bytes : List UInt8} (h : Chunk.Cut chunks bytes) :
    let run := (ofFeed (.ofChunks chunks)).drain
    let malformed : ReadFailure := ⟨.invalidData, "source is not valid UTF-8"⟩
    (run.failure = none ↔ Utf8.WellFormed bytes) ∧
    (Utf8.WellFormed bytes → Utf8.encode (run.fragments.flatMap Fragment.text) = bytes) ∧
    (¬ Utf8.WellFormed bytes → run.failure = some malformed) ∧
    ∃ text, Utf8.Decodes bytes text ∧ (∀ other, Utf8.Decodes bytes other → other = text) ∧
      run.fragments.flatMap Fragment.text <+: text ∧
      ∀ first rest, bytes = Utf8.encode text ++ first :: rest →
        (0x80 ≤ first.toNat ∧ first.toNat ≤ 0xC1 ∨ 0xF5 ≤ first.toNat) →
        ∀ steps, ∀ answer ∈ run.reader.session steps,
          answer = ⟨.error malformed, run.reader.position⟩ := by
  intro run malformed
  obtain ⟨text, htext⟩ := Utf8.exists_decodes bytes
  have hunique : ∀ other, Utf8.Decodes bytes other → other = text := fun _ => htext.unique
  obtain ⟨hwhole, hbroken⟩ := Feed.ofBytes_decodes htext
  have hrun : run = (ofFeed (.ofBytes bytes)).drain := by rw [← Feed.ofChunks_cut h]
  by_cases hbytes : Utf8.WellFormed bytes
  · obtain ⟨hencode, hfeed⟩ := hwhole hbytes
    obtain ⟨fs, s, hdrain, hdivides, -⟩ := drain_stands (.inl (ahead_ofFeed text))
    rw [hrun, hfeed, hdrain]
    refine ⟨iff_of_true rfl hbytes, fun _ => ?_, fun hn => absurd hbytes hn, text, htext, hunique,
      ?_, fun first rest heq => ?_⟩
    · rw [hdivides.flatMap_eq, hencode]
    · rw [hdivides.flatMap_eq]
    · rw [hencode, List.self_eq_append_right] at heq
      cases heq
  · obtain ⟨tail, after, hfeed, htail, hstuck⟩ := hbroken hbytes
    have hstart : (ofFeed (.before text tail)).UpTo tail text := ⟨rfl, text, rfl, rfl⟩
    obtain ⟨last, hfailure, hprefix, hcut, hafter, hheld⟩ := drain_upTo htail hstart
    rw [hrun, hfeed]
    refine ⟨iff_of_false (by simp [hfailure]) hbytes, fun hn => absurd hn hbytes,
      fun _ => hfailure, text, htext, hunique, hprefix, fun first rest heq hfirst => ?_⟩
    have hblocked := hstuck first rest heq ((Utf8.following_eq_none_iff first).mpr hfirst)
    subst hblocked
    cases htail
    exact session_again (step_again hheld (cut_again hcut hafter))

/-- The byte that starts no rune is met while looking behind `>>`, and met again and again. -/
theorem drain_decodes_behind_operator :
    let chunks := [.data [0x3E], .failure ⟨.interrupted, "try again"⟩, .data [0x3E, 0xFF]]
    let run := (ofFeed (.ofChunks chunks)).drain
    Chunk.Cut chunks [0x3E, 0x3E, 0xFF] ∧ Utf8.Decodes [0x3E, 0x3E, 0xFF] ['>', '>'] ∧
      run.failure = some ⟨.invalidData, "source is not valid UTF-8"⟩ ∧
      ∀ steps, ∀ answer ∈ run.reader.session steps,
        answer = ⟨.error ⟨.invalidData, "source is not valid UTF-8"⟩, run.reader.position⟩ := by
  intro chunks run
  have hcut : Chunk.Cut chunks [0x3E, 0x3E, 0xFF] :=
    .data (by decide) (.interruption rfl (.data (by decide) .done))
  have hbytes : [0x3E, 0x3E, 0xFF] = Utf8.encode ['>', '>'] ++ [0xFF] := by decide
  have hrest := Utf8.not_isPrefix_of_following (b := 0xFF) rfl []
  have hdecodes : Utf8.Decodes [0x3E, 0x3E, 0xFF] ['>', '>'] :=
    Utf8.decodes_iff.mpr ⟨_, hbytes, hrest⟩
  have hbroken : ¬ Utf8.WellFormed [0x3E, 0x3E, 0xFF] := by
    rw [hbytes, Utf8.wellFormed_append_iff hrest]
    exact List.cons_ne_nil _ _
  obtain ⟨-, -, hfailure, text, -, hunique, -, hagain⟩ := drain_decodes hcut
  obtain rfl := hunique _ hdecodes
  exact ⟨hcut, hdecodes, hfailure hbroken, hagain 0xFF [] hbytes (by decide)⟩

end FragmentReader

end SoliditySource
