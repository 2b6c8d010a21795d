import SoliditySource.Proofs.Grammar.Refusals
import SoliditySource.Proofs.Session.Tokens
import SoliditySource.Proofs.Source.Buffering

/-! # Errors of productions

A production that is made on a source, after any others, ends in a failure that reading the source
reported, or it refuses the source. It never does so for the first token of a construct that it
looked at before.
-/

namespace SoliditySource

variable {p : ReadFailure → Prop}

/-- By induction on the signals: an unfinished rune gives the failure for bytes that are not
UTF-8, and every other failure is one of the signals. -/
theorem Feed.failsOnly_assemble (hp : p .malformed) {signals : List Signal}
    (h : ∀ cause, .fault cause ∈ signals → p cause) (held : List UInt8) (missing : Nat) :
    (assemble held missing signals).FailsOnly p := by
  induction signals generalizing held missing with
  | nil =>
      unfold assemble
      split
      · trivial
      · exact ⟨hp, trivial⟩
  | cons signal signals ih =>
      have hrest := ih fun cause hc => h cause (List.mem_cons_of_mem _ hc)
      cases signal with
      | pause =>
          unfold assemble
          split
          · exact hrest [] 0
          · exact ⟨hp, hrest [] 0⟩
      | fault cause => exact ⟨h cause List.mem_cons_self, hrest [] 0⟩
      | byte b =>
          have hrune : ∀ bytes, (next (.ofBytes bytes) (assemble [] 0 signals)).FailsOnly p := by
            intro bytes
            unfold Delivery.ofBytes
            split
            · exact hrest [] 0
            · exact ⟨hp, hrest [] 0⟩
          unfold assemble
          split
          · split
            · exact hp
            · exact hrune _
            · exact hrest _ _
          · split
            · exact hrune _
            · exact hrune _
            · exact hrest _ _

theorem Signal.failure_mem {cause : ReadFailure} {chunks : List Chunk}
    (h : .fault cause ∈ ofChunks chunks) : .failure cause ∈ chunks := by
  induction chunks with
  | nil => cases h
  | cons chunk chunks ih =>
      cases chunk with
      | data bytes =>
          have hrest : .fault cause ∈ ofChunks chunks := by
            cases bytes with
            | nil => simpa [ofChunks] using h
            | cons b bs => simpa [ofChunks] using h
          exact List.mem_cons_of_mem _ (ih hrest)
      | failure other =>
          unfold ofChunks at h
          split at h
          · exact List.mem_cons_of_mem _ (ih h)
          · cases List.mem_cons.mp h with
            | inl heq => cases heq; exact List.mem_cons_self
            | inr hrest => exact List.mem_cons_of_mem _ (ih hrest)

/-- The failures of a source are those that reading its chunks reports, and the one for bytes that
are not UTF-8. -/
theorem Feed.failsOnly_ofChunks (chunks : List Chunk) :
    (ofChunks chunks).FailsOnly fun failure =>
      failure = .malformed ∨ .failure failure ∈ chunks := by
  rw [ofChunks, ofBuffer_eq_assemble]
  exact failsOnly_assemble (.inl rfl) (fun cause hc => .inr (Signal.failure_mem hc)) [] 0

namespace TokenReader

theorem Reached.failsOnly {feed : Feed} {r : TokenReader} (h : r.Reached feed)
    (hfeed : feed.FailsOnly p) : r.FailsOnly p := by
  have hread : ∀ r, FragmentReader.FailsOnly p r →
      Yields (FragmentReader.FailsOnly p) (fun _ => True) (Token.read r) := by
    intro r hr
    exact (Token.ends_read (FragmentReader.keeps_failsOnly p) hr).yields fun _ _ _ => trivial
  exact (h.holds hread hfeed).fragments

/-- A production that fails, on whatever reader it is made, does so with a failure that reading the
source reported, or it refuses the source. No production gives one of the messages for an `is`, a
`returns` or an opening quote that is missing, and the reading of a whole source unit does not give
the message for the first token of a directive, an import of all symbols, a return statement, a
literal, an elementary type or a modifier either. -/
theorem refusals_of_first_tokens {chunks : List Chunk} {r : TokenReader}
    (hr : r.Reached (.ofChunks chunks)) {α : Type} (production : Production α) {e : SourceError}
    (h : (r.parse production).result = .error e) :
    (∃ failure, e = .unreadable failure ∧
      (failure = .malformed ∨ .failure failure ∈ chunks)) ∨
    ∃ fault, e = .refused fault ∧
      fault.cause.message ∉ Cause.unseenMessages production.isWhole := by
  cases e with
  | unreadable failure =>
      have hfails := (Rule.ends_run _ (hr.failsOnly (Feed.failsOnly_ofChunks chunks))).2 _ h
      exact .inl ⟨failure, rfl, hfails⟩
  | refused fault =>
      have hcause : fault.cause.canArise production.isWhole = true :=
        (production.refusesOnly _).sound (fun _ => Cause.canArise_of_isLexical) (by simp) h
      exact .inr ⟨fault, rfl, Cause.message_not_mem_unseen hcause⟩

/-- The keyword of a contract may be missing even though the contract was looked for. -/
theorem refusals_of_first_tokens_abstract :
    let r := ofFeed (.ofChunks [.data (Utf8.encode "abstract ;".toList)])
    let fault := ⟨⟨1, 10⟩, .missing .contractKeyword⟩
    r.Reached (.ofChunks [.data (Utf8.encode "abstract ;".toList)]) ∧
    (r.parse .sourceUnit).result = .error (.refused fault) ∧
    fault.message = "1:10: not found contract keyword." ∧
    fault.cause.message ∉ Cause.unseenMessages true := by
  intro r fault
  have hr : r.At (Place.ofText "abstract ;".toList) := at_ofFeed "abstract ;".toList
  have hweight : r.weight = 10 := by decide +kernel
  have hup : (Place.ofText "abstract ;".toList).Upcoming
      [⟨.kwAbstract, "abstract".toList, ⟨1, 1⟩⟩, ⟨.semicolon, [';'], ⟨1, 10⟩⟩]
      (.ok (.eos ⟨1, 11⟩)) :=
    .token (n := ⟨" ;".toList, ⟨1, 9⟩⟩) rfl rfl
      (.token (n := ⟨[], ⟨1, 11⟩⟩) rfl rfl (.finished (n := ⟨[], ⟨1, 11⟩⟩) rfl rfl))
  have hparse : (r.parse .sourceUnit).result = .error (.refused fault) := by
    rw [parse, hweight]
    exact (Rule.run_describes (Production.sourceUnit.rule 11) hr hup).1
  obtain ⟨failure, hfailure, -⟩ | ⟨fault', hfault, hunseen⟩ :=
    refusals_of_first_tokens .start .sourceUnit hparse
  · cases hfailure
  · cases hfault
    exact ⟨.start, hparse, by decide, hunseen⟩

end TokenReader

end SoliditySource
