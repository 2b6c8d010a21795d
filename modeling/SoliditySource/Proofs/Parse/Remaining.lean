import SoliditySource.Proofs.Grammar.Leaves
import SoliditySource.Proofs.Parse.Spans

/-! # What productions leave of the tokens

A reader that does not run into an error hands out some tokens and then the end token again and
again (`TokenReader.Remains`). A production takes tokens from the front of these, whether or not
it succeeds. When it fails, the cause tells whether the token it points at was taken.
-/

namespace SoliditySource

/-! ## The tokens to come -/

namespace Token

/-- The next `n` tokens when `ts` are ahead and the end token comes again and again behind
them. -/
def ahead (ts : List Token) (eos : Token) (n : Nat) : List Token :=
  ts.take n ++ List.replicate (n - ts.length) eos

variable {ts : List Token} {eos : Token} {n : Nat}

@[simp] theorem ahead_zero (ts : List Token) (eos : Token) : ahead ts eos 0 = [] := by
  simp [ahead]

theorem ahead_succ (ts : List Token) (eos : Token) (n : Nat) :
    ahead ts eos (n + 1) = ts.headD eos :: ahead ts.tail eos n := by
  cases ts <;> simp [ahead, List.replicate_succ]

theorem ahead_add (ts : List Token) (eos : Token) (m n : Nat) :
    ahead ts eos (m + n) = ahead ts eos m ++ ahead (ts.drop m) eos n := by
  induction m generalizing ts with
  | zero => simp
  | succ m ih =>
      rw [Nat.add_right_comm, ahead_succ, ahead_succ, ih, List.drop_tail, List.cons_append]

theorem ahead_of_le (h : n ≤ ts.length) : ahead ts eos n = ts.take n := by
  simp [ahead, Nat.sub_eq_zero_of_le h]

theorem eos_mem_ahead (h : ts.length < n) : eos ∈ ahead ts eos n := by
  rw [ahead, List.mem_append, List.mem_replicate]
  exact .inr ⟨by omega, rfl⟩

end Token

namespace TokenReader

variable {r s : TokenReader} {ts : List Token} {eos : Token}

/-- The tokens `ts` remain to be handed out, a token that is held among them, and after them the
end token again and again. -/
def Remains (r : TokenReader) (ts : List Token) (eos : Token) : Prop :=
  ∀ n, ∃ s, r.Hands (Token.ahead ts eos n) s

theorem remains_iff :
    r.Remains ts eos ↔ ∃ s, r.next = .ok (ts.headD eos) s ∧ s.Remains ts.tail eos := by
  constructor
  · intro h
    obtain ⟨s, hs⟩ := h 1
    rw [Token.ahead_succ] at hs
    cases hs with
    | cons hnext _ =>
        refine ⟨_, hnext, fun n => ?_⟩
        obtain ⟨u, hu⟩ := h (n + 1)
        rw [Token.ahead_succ] at hu
        cases hu with
        | cons hnext' hu =>
            cases hnext.symm.trans hnext'
            exact ⟨u, hu⟩
  · rintro ⟨s, hnext, hs⟩ n
    cases n with
    | zero => exact ⟨r, by simpa using Hands.nil r⟩
    | succ n =>
        obtain ⟨u, hu⟩ := hs n
        rw [Token.ahead_succ]
        exact ⟨u, .cons hnext hu⟩

theorem Remains.congr (h : r.Remains ts eos) (hs : r.next = s.next) : s.Remains ts eos := by
  rw [remains_iff] at h ⊢
  rwa [← hs]

/-- A look at the next token leaves the tokens as they are. -/
theorem Remains.peek (h : r.Remains ts eos) :
    ∃ s, r.peek = .ok (ts.headD eos) s ∧ s.Remains ts eos := by
  obtain ⟨s, hnext, -⟩ := remains_iff.mp h
  have hpeek : ∃ u, r.peek = .ok (ts.headD eos) u := by
    unfold next at hnext
    unfold TokenReader.peek
    split at hnext
    · next t hheld =>
        cases hnext
        exact ⟨r, rfl⟩
    · next hheld =>
        split at hnext
        · next t v hread =>
            cases hnext
            exact ⟨⟨v, some _⟩, rfl⟩
        · cases hnext
  obtain ⟨u, hu⟩ := hpeek
  exact ⟨u, hu, h.congr (next_of_peek hu).1.symm⟩

theorem Remains.length_le_weight (h : r.Remains ts eos) (hts : ∀ t ∈ ts, t.kind ≠ .eos) :
    ts.length ≤ r.weight := by
  induction ts generalizing r with
  | nil => exact Nat.zero_le _
  | cons t ts ih =>
      obtain ⟨ht, hts⟩ := List.forall_mem_cons.mp hts
      obtain ⟨s, hnext, hs⟩ := remains_iff.mp h
      have hlt := weight_next hnext (by simpa [Token.isEos] using ht)
      have hle := ih hs hts
      rw [List.length_cons]
      omega

theorem Remains.of_upcoming {place : Place} (hr : r.At place)
    (hup : place.Upcoming ts (.ok eos)) : r.Remains ts eos := by
  intro n
  induction n generalizing r place ts with
  | zero => exact ⟨r, by simpa using Hands.nil r⟩
  | succ n ih =>
      obtain ⟨next, hread, hnext, -, -⟩ := hup.read_headD
      obtain ⟨s, hs, ha⟩ := next_ok hr hread
      obtain ⟨u, hu⟩ := ih ha hnext
      rw [Token.ahead_succ]
      exact ⟨u, .cons hs hu⟩

end TokenReader

/-! ## Rules -/

/-- What the verdict tells is the result, and it leaves the tokens `rest`. -/
def Verdict.Gives {α : Type} (result : Except SourceError α) (rest : List Token) :
    Verdict α → Prop
  | value a left => result = .ok a ∧ left = rest
  | refusal fault left => result = .error (.refused fault) ∧ left = rest
  | starved => False

/-- A run takes tokens from the front, as the verdict on the remaining tokens tells. -/
theorem Rule.run_remains {α : Type} (rule : Rule α) {r : TokenReader} {ts : List Token}
    {eos : Token} (h : r.Remains ts eos) :
    ∃ n, rule.taken r = Token.ahead ts eos n ∧ (rule.run r).reader.Remains (ts.drop n) eos ∧
      (rule.follow (some eos) ts).Gives (rule.run r).result (ts.drop n) := by
  induction rule generalizing r ts with
  | done value => exact ⟨0, by simp [taken], h, rfl, rfl⟩
  | refuse fault => exact ⟨0, by simp [taken], h, rfl, rfl⟩
  | look next ih =>
      obtain ⟨s, hpeek, hs⟩ := h.peek
      rw [follow, run, taken, hpeek, head?_or_eq]
      exact ih (ts.headD eos) hs
  | take next ih =>
      obtain ⟨s, hnext, hs⟩ := TokenReader.remains_iff.mp h
      obtain ⟨n, htaken, hreader, hgives⟩ := ih (ts.headD eos) hs
      rw [List.drop_tail] at hreader hgives
      rw [follow, run, taken, hnext, head?_or_eq]
      refine ⟨n + 1, ?_, hreader, hgives⟩
      dsimp only
      rw [htaken, Token.ahead_succ]
  | note event next ih => exact ih h

/-! ## Productions -/

/-- What reading a construct does to a reader with `ts` ahead: it takes tokens from the front,
none of them the end token if it succeeds, and the others remain. If it fails, it is at the
position of one of the tokens, `eos` being one of them, and this token remains unless it was
taken before it was found wrong. -/
structure Production.Leaves {α : Type} (production : Production α) (r : TokenReader)
    (ts : List Token) (eos : Token) : Prop where
  taken : ∃ n, r.consumed production = Token.ahead ts eos n ∧
    (r.parse production).reader.Remains (ts.drop n) eos
  ok : ∀ a, (r.parse production).result = .ok a →
    ∃ rest, ts = r.consumed production ++ rest ∧ (r.parse production).reader.Remains rest eos
  error : ∀ e, (r.parse production).result = .error e →
    ∃ fault, e = .refused fault ∧
      (∃ k ≤ ts.length, fault.position = (ts.getD k eos).position) ∧
      ∀ k ≤ ts.length, fault.position = (ts.getD k eos).position →
        (r.parse production).reader.Remains
          (ts.drop (if production.isLookedAt fault.cause then k else k + 1)) eos

/-- Each position is that of one token only. -/
theorem nodup_position {ts : List Token} (h : ts.Pairwise fun t u => t.last < u.position) :
    (ts.map Token.position).Nodup := by
  rw [List.Nodup, List.pairwise_map]
  apply h.imp
  intro t u hlt heq
  rw [← heq] at hlt
  exact Position.not_le_of_lt hlt t.position_le_last

theorem eq_of_position_eq {ts : List Token} {eos : Token}
    (h : ((ts ++ [eos]).map Token.position).Nodup) {k m : Nat} (hk : k ≤ ts.length)
    (hm : m ≤ ts.length) (heq : (ts.getD k eos).position = (ts.getD m eos).position) : k = m := by
  have hget : ∀ i ≤ ts.length,
      ((ts ++ [eos]).map Token.position)[i]? = some (ts.getD i eos).position := by
    intro i hi
    rw [List.getElem?_map, List.getD_eq_getElem?_getD]
    obtain hlt | rfl := Nat.lt_or_eq_of_le hi
    · rw [List.getElem?_append_left hlt]
      simp [hlt]
    · simp
  apply (List.getElem?_inj (by simp; omega) h).mp
  rw [hget k hk, hget m hm, heq]

theorem Production.leaves_of_remains {α : Type} (production : Production α) {r : TokenReader}
    {ts : List Token} {eos : Token} (h : r.Remains ts eos) (heos : eos.kind = .eos)
    (hts : ∀ t ∈ ts, t.kind ≠ .eos) (hnodup : ((ts ++ [eos]).map Token.position).Nodup) :
    production.Leaves r ts eos := by
  obtain ⟨n, htaken, hreader, hgives⟩ := (production.rule (r.weight + 1)).run_remains h
  refine ⟨⟨n, htaken, hreader⟩, fun a hok => ?_, fun e herror => ?_⟩
  · have hkinds := ((production.gathers (r.weight + 1)).sound (by simp) hok).1
    have hle : n ≤ ts.length := by
      apply Nat.le_of_not_lt
      intro hlt
      exact hkinds eos (by rw [htaken]; exact Token.eos_mem_ahead hlt) heos
    refine ⟨ts.drop n, ?_, hreader⟩
    rw [TokenReader.consumed, htaken, Token.ahead_of_le hle, List.take_append_drop]
  · have hlen := Nat.lt_succ_of_le (h.length_le_weight hts)
    have hleaves := production.leaves heos (r.weight + 1) ts hlen (by simp)
    cases hv : (production.rule (r.weight + 1)).follow (some eos) ts with
    | value a left =>
        rw [hv] at hgives
        cases herror.symm.trans hgives.1
    | starved =>
        rw [hv] at hgives
        exact hgives.elim
    | refusal fault left =>
        rw [hv] at hgives hleaves
        cases herror.symm.trans hgives.1
        obtain ⟨back, ⟨front, rfl⟩, hposition, hleft⟩ := hleaves
        have hget : ((front ++ back).getD front.length eos) = back.headD eos := by
          cases back <;> simp [List.getD_eq_getElem?_getD]
        rw [← hget] at hposition
        refine ⟨fault, rfl, ⟨front.length, by simp, hposition⟩, fun k hk hp => ?_⟩
        obtain rfl := eq_of_position_eq hnodup hk (by simp) (hp.symm.trans hposition)
        have hdrop : left = (front ++ back).drop
            (if production.isLookedAt fault.cause then front.length else front.length + 1) := by
          rw [hleft]
          split <;> simp [List.drop_append]
        rw [← hdrop, hgives.2]
        exact hreader

/-! ## Productions in a row -/

namespace TokenReader

/-- The reader that readings in a row leave, whether or not they fail. -/
def afterReadings : List (Σ α : Type, Production α) → TokenReader → TokenReader
  | [], r => r
  | ⟨_, production⟩ :: rest, r => afterReadings rest (r.parse production).reader

/-- The tokens that readings in a row take, whether or not they fail. -/
def consumedBy : List (Σ α : Type, Production α) → TokenReader → List Token
  | [], _ => []
  | ⟨_, production⟩ :: rest, r =>
      r.consumed production ++ consumedBy rest (r.parse production).reader

theorem consumedBy_remains (productions : List (Σ α : Type, Production α)) {r : TokenReader}
    {ts : List Token} {eos : Token} (h : r.Remains ts eos) :
    ∃ n, consumedBy productions r = Token.ahead ts eos n ∧
      (afterReadings productions r).Remains (ts.drop n) eos := by
  induction productions generalizing r ts with
  | nil => exact ⟨0, by simp [consumedBy], h⟩
  | cons entry rest ih =>
      obtain ⟨α, production⟩ := entry
      obtain ⟨m, htaken, hreader, -⟩ := (production.rule (r.weight + 1)).run_remains h
      obtain ⟨n, hrest, hafter⟩ := ih hreader
      refine ⟨m + n, ?_, by rwa [List.drop_drop] at hafter⟩
      rw [consumedBy, consumed, htaken, Token.ahead_add, ← hrest]
      rfl

/-- A reader of a text that falls into tokens hands out the last ones of these tokens and then
the end token again and again, and so it is after each production: those taken are gone, and of
a token that a production fails at the cause tells whether it was taken. Productions in a row,
failing or not, take the tokens one by one, none of them twice. -/
theorem parse_remaining {text : List Char} {tokens : List Token} {s : TokenReader}
    (h : (ofFeed (.ofText text)).all = .ok tokens s) :
    ∃ ts eos, tokens = ts ++ [eos] ∧ (ofFeed (.ofText text)).Remains ts eos ∧
      ∀ (r : TokenReader) (rest : List Token), rest <:+ ts → r.Remains rest eos →
        (∀ {α : Type} (production : Production α), production.Leaves r rest eos) ∧
        ∀ productions, ∃ n, consumedBy productions r = Token.ahead rest eos n ∧
          (afterReadings productions r).Remains (rest.drop n) eos := by
  have hr := at_ofFeed text
  obtain ⟨ts, ending, hup⟩ := (Place.ofText text).exists_upcoming
  obtain ⟨s', hs'⟩ := all_upcoming hup hr
  rw [hs'] at h
  cases ending with
  | error fault => cases h
  | ok eos =>
      cases h
      refine ⟨ts, eos, rfl, .of_upcoming hr hup, fun r rest hsuffix hremains => ?_⟩
      have hordered : (ts ++ [eos]).Pairwise fun t u => t.last < u.position :=
        List.pairwise_append.mpr
          ⟨hup.ordered, List.pairwise_singleton _ _, by simpa using hup.last_lt_eos⟩
      have hrest := hsuffix.sublist
      have hnodup := nodup_position (hordered.sublist (hrest.append_right [eos]))
      refine ⟨fun production => ?_, fun productions => consumedBy_remains productions hremains⟩
      exact production.leaves_of_remains hremains hup.isEos
        (fun t ht => hup.ne_eos t (hrest.subset ht)) hnodup

/-- A path is not found at the first token of `a ;`, which is taken, and an expression is not
found at the second one, which remains. -/
theorem parse_remaining_semicolon :
    ∃ s, (ofFeed (.ofText "a ;".toList)).all = .ok [⟨.identifier, ['a'], ⟨1, 1⟩⟩,
          ⟨.semicolon, [';'], ⟨1, 3⟩⟩, .eos ⟨1, 4⟩] s ∧
      (afterReadings [⟨_, .path⟩] (ofFeed (.ofText "a ;".toList))).Remains
        [⟨.semicolon, [';'], ⟨1, 3⟩⟩] (.eos ⟨1, 4⟩) ∧
      (afterReadings [⟨_, .path⟩, ⟨_, .expression⟩] (ofFeed (.ofText "a ;".toList))).Remains
        [⟨.semicolon, [';'], ⟨1, 3⟩⟩] (.eos ⟨1, 4⟩) := by
  have hup : (Place.ofText "a ;".toList).Upcoming [⟨.identifier, ['a'], ⟨1, 1⟩⟩,
      ⟨.semicolon, [';'], ⟨1, 3⟩⟩] (.ok (.eos ⟨1, 4⟩)) :=
    .token (n := ⟨" ;".toList, ⟨1, 2⟩⟩) rfl rfl
      (.token (n := ⟨[], ⟨1, 4⟩⟩) rfl rfl (.finished (n := ⟨[], ⟨1, 4⟩⟩) rfl rfl))
  obtain ⟨s, hs⟩ := all_upcoming hup (at_ofFeed _)
  rw [total, List.cons_append, List.singleton_append] at hs
  obtain ⟨ts, eos, htokens, hr, hleaves⟩ := parse_remaining hs
  obtain ⟨rfl, heos⟩ := List.append_inj' (show [_, _] ++ [_] = ts ++ [eos] from htokens) rfl
  cases heos
  obtain ⟨n, -, -, hpath⟩ := Rule.run_remains Grammar.path hr
  obtain ⟨_, hfault, -, hafter⟩ := ((hleaves _ _ List.suffix_rfl hr).1 .path).error _ hpath.1
  cases hfault
  have hfirst := hafter 0 (by simp) rfl
  obtain ⟨m, -, -, hexpression⟩ := Rule.run_remains Grammar.expression hfirst
  obtain ⟨_, hfault, -, hafter'⟩ :=
    ((hleaves _ _ (List.suffix_cons _ _) hfirst).1 .expression).error _ hexpression.1
  cases hfault
  exact ⟨s, hs, hfirst, hafter' 0 (by simp) rfl⟩

end TokenReader

end SoliditySource
