import SoliditySource.Proofs.Grammar.Limits
import SoliditySource.Proofs.Grammar.Quiet
import SoliditySource.Proofs.Parse.Spans

/-! # The events of a source unit

While a source unit is read, the events of the top level tell one story: each construct is
announced by a dispatch for its first token, reported when it has been read, and reported to
replace the latest one of its sort if there is one; the last dispatch is for the token at which
the reading stops. The unit that comes out is what the story says.
-/

namespace SoliditySource

open Phrase

/-! ## The story -/

/-- The dispatch for a token, if there is one. -/
def Event.dispatches (t? : Option Token) : List Event :=
  (t?.map fun t => .dispatch t.kind t.position).toList

def Event.isParsed (c : Construct) : Event → Bool
  | parsed construct _ => construct = c
  | _ => false

def Event.isReplaced (c : Construct) : Event → Bool
  | replaced construct _ => construct = c
  | _ => false

namespace TopLevel

/-- What is told when an item has been read from the tokens of a segment. The items in `earlier`
were read before, and the latest one of the same sort is replaced. -/
def told (earlier : List TopLevel) (segment : List Token) (item : TopLevel) : List Event :=
  Event.dispatches segment.head? ++ .parsed item.construct item.span ::
    ((earlier.filter (·.construct = item.construct)).getLast?.map fun old =>
      .replaced item.construct old.span.first).toList

/-- What is told of items in a row, each with its segment. -/
def story : (earlier : List TopLevel) → List (List Token × TopLevel) → List Event
  | _, [] => []
  | earlier, (segment, item) :: rest =>
      told earlier segment item ++ story (earlier ++ [item]) rest

/-! ### Counts -/

section

variable (c : Construct) (earlier : List TopLevel)

theorem countP_isParsed_told (segment : List Token) (item : TopLevel) :
    (told earlier segment item).countP (Event.isParsed c) =
      if item.construct = c then 1 else 0 := by
  unfold told Event.dispatches
  cases segment.head? <;> cases (earlier.filter (·.construct = item.construct)).getLast? <;>
    simp [Event.isParsed, List.countP_cons]

theorem countP_isReplaced_told (segment : List Token) (item : TopLevel) :
    (told earlier segment item).countP (Event.isReplaced c) =
      if item.construct = c ∧ earlier.filter (·.construct = c) ≠ [] then 1 else 0 := by
  unfold told Event.dispatches
  by_cases h : item.construct = c
  · subst h
    cases hlast : (earlier.filter (·.construct = item.construct)).getLast? with
    | none =>
        rw [List.getLast?_eq_none_iff] at hlast
        cases segment.head? <;> simp [Event.isReplaced, hlast]
    | some old =>
        have hne := List.ne_nil_of_mem (List.mem_of_getLast? hlast)
        cases segment.head? <;> simp [Event.isReplaced, hne]
  · cases segment.head? <;> cases (earlier.filter (·.construct = item.construct)).getLast? <;>
      simp [Event.isReplaced, h]

theorem countP_isParsed_story (entries : List (List Token × TopLevel)) :
    (story earlier entries).countP (Event.isParsed c) =
      ((entries.map Prod.snd).filter (·.construct = c)).length := by
  induction entries generalizing earlier with
  | nil => rfl
  | cons entry rest ih =>
      obtain ⟨segment, item⟩ := entry
      rw [story, List.countP_append, countP_isParsed_told, ih, List.map_cons, List.filter_cons]
      by_cases h : item.construct = c
      · simp [h, Nat.add_comm]
      · simp [h]

/-- Every item replaces one, apart from the first one of its sort. -/
theorem countP_isReplaced_story (entries : List (List Token × TopLevel)) :
    (story earlier entries).countP (Event.isReplaced c) =
      ((entries.map Prod.snd).filter (·.construct = c)).length -
        if earlier.filter (·.construct = c) = [] then 1 else 0 := by
  induction entries generalizing earlier with
  | nil => simp [story]
  | cons entry rest ih =>
      obtain ⟨segment, item⟩ := entry
      rw [story, List.countP_append, countP_isReplaced_told, ih, List.map_cons, List.filter_cons,
        List.filter_append]
      by_cases h : item.construct = c
      · by_cases hearlier : earlier.filter (·.construct = c) = []
        · simp [h, hearlier]
        · simp [h, hearlier, Nat.add_comm]
      · simp [h]

end

end TopLevel

/-! ## Running a turn -/

theorem Construct.quiet_rule (c : Construct) (limit : Nat) : (c.rule limit).Quiet := by
  cases c with
  | pragmaDirective => exact (Grammar.quiet_pragmaDirective limit).map _
  | importDirective => exact (Grammar.quiet_importDirective limit).map _
  | contractDefinition => exact (Grammar.quiet_contractDefinition limit).map _
  | functionDefinition => exact (Grammar.quiet_functionDefinition limit).map _

namespace Rule

variable {α β : Type}

theorem run_peek_bind (f : Token → Rule β) (r : TokenReader) :
    (peek >>= f).run r =
      match r.peek with
      | .ok t s => (f t).run s
      | .error e s => ⟨.error e, [], s⟩ := by
  show (look f).run r = _
  cases hp : r.peek <;> simp only [run, hp]

theorem run_log_bind (event : Event) (f : Unit → Rule β) (r : TokenReader) :
    (log event >>= f).run r =
      { (f ()).run r with events := event :: ((f ()).run r).events } := rfl

theorem run_logParsed_bind (construct : Construct) (span : Span) (earlier : Option Span)
    (f : Unit → Rule β) (r : TokenReader) :
    (Grammar.logParsed construct span earlier >>= f).run r =
      { (f ()).run r with
        events := .parsed construct span :: (earlier.map fun old =>
          .replaced construct old.first).toList ++ ((f ()).run r).events } := by
  cases earlier <;> rfl

theorem run_map_error {f : α → β} {rule : Rule α} {r : TokenReader} {e : SourceError}
    (h : ((f <$> rule).run r).result = .error e) : (rule.run r).result = .error e := by
  rw [← bind_pure_comp, run_bind] at h
  cases hr : (rule.run r).result with
  | ok a => rw [hr] at h; cases h
  | error e' => rw [hr] at h; cases h; rfl

end Rule

theorem Construct.construct_of_rule {c : Construct} {n : Nat} {r : TokenReader} {item : TopLevel}
    (h : ((c.rule n).run r).result = .ok item) : item.construct = c := by
  rw [Construct.rule, ← bind_pure_comp] at h
  obtain ⟨tree, -, hitem, -⟩ := Rule.run_bind_ok h
  cases hitem
  exact c.construct_wrap tree

/-! ## Reading -/

/-- What reading constructs into `unit` comes to in front of tokens that no further construct is
read from. -/
def Stops (n : Nat) (ending : Except Fault Token) (rest : List Token) (unit : SourceUnit) :
    Except SourceError SourceUnit → Prop
  | .ok result => result = unit ∧ ∃ t ∈ rest.head?.or ending.toOption, t.kind = .eos
  | .error e =>
      match rest.head?.or ending.toOption with
      | none => ∃ fault, ending = .error fault ∧ e = .refused fault
      | some t => t.kind ≠ .eos ∧
          match t.kind.construct? with
          | some c => ∀ (s : TokenReader) (place : Place), s.At place →
              place.Upcoming rest ending → ((c.production.rule n).run s).result = .error e
          | none => e = .refused ⟨t.position, .invalidToken⟩

/-- The construct that the next token starts is not read. -/
theorem Stops.of_construct {n : Nat} {ending : Except Fault Token} {ts : List Token} {t : Token}
    {unit : SourceUnit} {c : Construct} {s : TokenReader} {place : Place} {e : SourceError}
    (hhead : ts.head?.or ending.toOption = some t) (hc : t.kind.construct? = some c)
    (hs : s.At place) (hup : place.Upcoming ts ending)
    (he : ((c.rule n).run s).result = .error e) : Stops n ending ts unit (.error e) := by
  simp only [Stops, hhead, hc]
  refine ⟨TokenKind.ne_eos_of_construct? hc, fun s' place' hs' hup' => ?_⟩
  apply Rule.run_map_error (f := c.wrap)
  exact (Rule.run_describes _ hs hup).error_eq (Rule.run_describes _ hs' hup') he

/-- The outcome of reading constructs from `ts` into a unit that holds the items `earlier`: the
items are read from the segments, and nothing more from the tokens in `rest`. -/
structure Outcome.Tells (outcome : Outcome SourceUnit) (n : Nat) (ending : Except Fault Token)
    (earlier : List TopLevel) (ts : List Token) (segments : List (List Token))
    (items : List TopLevel) (rest : List Token) : Prop where
  split : ts = segments.flatten ++ rest
  spells : List.Forall₂ topLevel.Spells segments items
  events : outcome.events.filter Event.isTopLevel =
    TopLevel.story earlier (segments.zip items) ++
      Event.dispatches (rest.head?.or ending.toOption)
  result : Stops n ending rest ((earlier ++ items).foldl TopLevel.store .empty) outcome.result

section

variable {n : Nat} {ending : Except Fault Token} {earlier : List TopLevel} {ts : List Token}

theorem Outcome.tells_nil {outcome : Outcome SourceUnit}
    (hevents : outcome.events.filter Event.isTopLevel =
      Event.dispatches (ts.head?.or ending.toOption))
    (hresult : Stops n ending ts (earlier.foldl TopLevel.store .empty) outcome.result) :
    outcome.Tells n ending earlier ts [] [] ts :=
  ⟨rfl, .nil, hevents, by rwa [List.append_nil]⟩

/-- A construct is read first, quietly at the top level, and then the others. -/
theorem Outcome.Tells.cons {outcome : Outcome SourceUnit} {segment after rest : List Token}
    {item : TopLevel} {segments : List (List Token)} {items : List TopLevel} {t : Token}
    {quiet : List Event} (h : outcome.Tells n ending (earlier ++ [item]) after segments items rest)
    (hspells : topLevel.Spells segment item) (hhead : (segment ++ after).head? = some t)
    (hquiet : quiet.filter Event.isTopLevel = []) :
    Outcome.Tells { outcome with
        events := .dispatch t.kind t.position :: (quiet ++ (.parsed item.construct item.span ::
          (((earlier.foldl TopLevel.store .empty).slot item.construct).map fun old =>
            .replaced item.construct old.span.first).toList ++ outcome.events)) }
      n ending earlier (segment ++ after) (segment :: segments) (item :: items) rest := by
  have hfirst : segment.head? = some t := by
    cases segment with
    | nil => exact absurd hspells (not_spells_nil rfl item)
    | cons u segment => exact hhead
  refine ⟨?_, .cons hspells h.spells, ?_, ?_⟩
  · rw [List.flatten_cons, List.append_assoc, ← h.split]
  · rw [SourceUnit.slot_foldl_store, List.zip_cons_cons, TopLevel.story, List.append_assoc,
      ← h.events, TopLevel.told, hfirst]
    cases (earlier.filter (·.construct = item.construct)).getLast? <;>
      simp [Event.dispatches, List.filter_cons, hquiet]
  · have hresult := h.result
    rwa [List.append_assoc, List.singleton_append] at hresult

/-- By induction on the turns: a turn reads one construct, which leaves fewer tokens, or none. -/
theorem Grammar.tells_constructs {count : Nat} (hle : count ≤ n) (earlier : List TopLevel)
    {r : TokenReader} {place : Place} (hr : r.At place) (hup : place.Upcoming ts ending)
    (hlen : ts.length < count) :
    ∃ segments items rest,
      ((constructs n count (earlier.foldl TopLevel.store .empty)).run r).Tells n ending earlier ts
        segments items rest := by
  induction count generalizing earlier r place ts with
  | zero => exact absurd hlen (Nat.not_lt_zero _)
  | succ count ih =>
      rw [constructs_succ, Rule.run_peek_bind]
      obtain ⟨t, next, hhead, hread, -⟩ | ⟨fault, hhead, he, hread⟩ := hup.read_eq
      · obtain ⟨s, hs, ha⟩ := TokenReader.peek_ok hr hread
        rw [hs]
        dsimp only
        rw [Rule.run_log_bind]
        cases hc : t.kind.construct? with
        | none =>
            dsimp only
            by_cases hk : t.kind = .eos
            · rw [if_pos hk]
              refine ⟨[], [], ts, Outcome.tells_nil ?_ ⟨rfl, t, hhead, hk⟩⟩
              rw [hhead]
              rfl
            · rw [if_neg hk]
              refine ⟨[], [], ts, Outcome.tells_nil ?_ ?_⟩
              · rw [hhead]
                rfl
              · simp [Stops, Rule.refuseAt, Rule.run, hhead, hc, hk]
        | some c =>
            have hlimit := Nat.lt_of_lt_of_le hlen hle
            have hquiet := c.quiet_rule n s
            dsimp only
            rw [Rule.run_bind]
            cases hresult : ((c.rule n).run s).result with
            | ok item =>
                have hsound := Construct.sound hup.isEnd hlimit hhead hc
                obtain ⟨after, hvalue, place', hat, hup'⟩ :=
                  (Rule.run_describes (c.rule n) ha hup).of_ok hresult
                rw [hvalue] at hsound
                have hlt := hsound.length_lt rfl
                have hcons := Verdict.eq_cons_tail hup.isEnd hhead
                  (TokenKind.ne_eos_of_construct? hc)
                obtain ⟨used, rfl, hspells, -⟩ := hsound
                obtain ⟨segments, items, rest, h⟩ :=
                  ih (Nat.le_of_succ_le hle) (earlier ++ [item]) hat hup' (by omega)
                refine ⟨used :: segments, item :: items, rest, ?_⟩
                have htells := h.cons hspells (by rw [hcons]; rfl) hquiet
                rw [List.foldl_append, Construct.construct_of_rule hresult] at htells
                dsimp only
                rw [Rule.run_logParsed_bind, Construct.construct_of_rule hresult, Option.map_map]
                exact htells
            | error e =>
                refine ⟨[], [], ts, Outcome.tells_nil ?_ ?_⟩
                · simp [hquiet, List.filter_cons, hhead, Event.dispatches]
                · exact .of_construct hhead hc ha hup hresult
      · obtain ⟨s, hs⟩ := TokenReader.peek_error hr hread
        rw [hs]
        refine ⟨[], [], ts, Outcome.tells_nil ?_ ?_⟩
        · simp [hhead, Event.dispatches]
        · simp only [Stops, hhead]
          exact ⟨fault, he, rfl⟩

end

/-! ## Where the reading stops -/

namespace TokenReader

variable {r s u : TokenReader} {place : Place} {ending : Except Fault Token}

/-- The next token, unless looking at it fails. -/
def ahead? (r : TokenReader) : Option Token :=
  match r.peek with
  | .ok t _ => some t
  | .error _ _ => none

/-- The constructs `items` are read one after the other from the tokens of the `segments`, and
from the reader `u` behind them no further one. -/
structure Completes (r : TokenReader) (segments : List (List Token)) (items : List TopLevel)
    (u : TokenReader) : Prop where
  spells : List.Forall₂ topLevel.Spells segments items
  hands : r.Hands segments.flatten u
  last : ∀ t ∈ u.ahead?, ∀ c ∈ t.kind.construct?, ∀ tree, (u.parse c.production).result ≠ .ok tree

/-- The error with which a source unit is refused at the token that the reader looks at: looking
at it fails, or reading the construct that it starts, or it starts none. -/
def StopsWith (u : TokenReader) (e : SourceError) : Prop :=
  match u.peek with
  | .error e' _ => e = e'
  | .ok t _ => t.kind ≠ .eos ∧
      match t.kind.construct? with
      | some c => (u.parse c.production).result = .error e
      | none => e = .refused ⟨t.position, .invalidToken⟩

/-- A reader of a text can hand out the first tokens that are ahead. -/
theorem At.hands {us vs : List Token} (hr : r.At place) (hup : place.Upcoming (us ++ vs) ending) :
    ∃ s place', r.Hands us s ∧ s.At place' ∧ place'.Upcoming vs ending := by
  induction us generalizing r place with
  | nil => exact ⟨r, place, .nil r, hr, hup⟩
  | cons t us ih =>
      cases hup with
      | token hread _ hnext =>
          obtain ⟨s, hs, ha⟩ := next_ok hr hread
          obtain ⟨u, place', hhands, hat, hrest⟩ := ih ha hnext
          exact ⟨u, place', .cons hs hhands, hat, hrest⟩

theorem Hands.weight_le {us : List Token} (h : r.Hands us s) : s.weight ≤ r.weight := by
  induction h with
  | nil r => exact Nat.le_refl _
  | cons hnext _ ih => exact Nat.le_trans ih (weight_next_le hnext)

theorem At.ahead?_eq {ts : List Token} (hr : r.At place) (hup : place.Upcoming ts ending) :
    r.ahead? = ts.head?.or ending.toOption := by
  unfold ahead?
  obtain ⟨t, next, hhead, hread, -⟩ | ⟨fault, hhead, -, hread⟩ := hup.read_eq
  · obtain ⟨s, hs, -⟩ := peek_ok hr hread
    rw [hs, hhead]
  · obtain ⟨s, hs⟩ := peek_error hr hread
    rw [hs, hhead]

end TokenReader

theorem Stops.stopsWith {n : Nat} {ending : Except Fault Token} {rest : List Token}
    {unit : SourceUnit} {e : SourceError} (h : Stops n ending rest unit (.error e))
    {u : TokenReader} {place : Place} (hu : u.At place) (hup : place.Upcoming rest ending)
    (hweight : u.weight < n) : u.StopsWith e := by
  unfold TokenReader.StopsWith
  simp only [Stops] at h
  obtain ⟨t, next, hhead, hread, -⟩ | ⟨fault, hhead, he, hread⟩ := hup.read_eq
  · obtain ⟨s, hs, -⟩ := TokenReader.peek_ok hu hread
    rw [hhead] at h
    dsimp only at h
    rw [hs]
    refine ⟨h.1, ?_⟩
    cases hc : t.kind.construct? with
    | none => rw [hc] at h; exact h.2
    | some c =>
        rw [hc] at h
        dsimp only
        rw [u.parse_eq_run c.production hweight]
        exact h.2 u place hu hup
  · obtain ⟨s, hs⟩ := TokenReader.peek_error hu hread
    rw [hhead] at h
    rw [hs]
    obtain ⟨fault', hfault, rfl⟩ := h
    cases he.symm.trans hfault
    rfl

/-- The construct at which the reading stops is not read. -/
theorem TokenReader.StopsWith.last {u : TokenReader} {e : SourceError} (h : u.StopsWith e) :
    ∀ t ∈ u.ahead?, ∀ c ∈ t.kind.construct?, ∀ tree,
      (u.parse c.production).result ≠ .ok tree := by
  intro t ht c hc tree htree
  unfold StopsWith at h
  unfold ahead? at ht
  cases hpeek : u.peek with
  | error e' s => rw [hpeek] at ht; cases ht
  | ok t' s =>
      rw [hpeek] at h ht
      cases ht
      rw [Option.mem_def] at hc
      simp only [hc, htree] at h
      cases h.2

/-! ## The story of a text -/

theorem Event.countP_filter_isTopLevel {p : Event → Bool}
    (hp : ∀ e, p e = true → e.isTopLevel = true) (events : List Event) :
    (events.filter isTopLevel).countP p = events.countP p := by
  rw [List.countP_filter]
  apply List.countP_congr
  intro e _
  rw [Bool.and_eq_true]
  exact ⟨And.left, fun h => ⟨h, hp e h⟩⟩

/-- The events that are noted when the text is read as a source unit. -/
def SourceUnit.events (text : String) : List Event :=
  ((TokenReader.ofFeed (.ofText text.toList)).parse .sourceUnit).events

/-- The slots of a unit hold the last items of their sorts, and the events tell as much: every
item was reported, and every one but the first of its sort to replace another. -/
structure SourceUnit.AgreesWith (unit : SourceUnit) (items : List TopLevel)
    (events : List Event) : Prop where
  slot : ∀ c, unit.slot c = (items.filter (·.construct = c)).getLast?
  counts : ∀ c, if (unit.slot c).isSome then
      events.countP (Event.isParsed c) = events.countP (Event.isReplaced c) + 1
    else events.countP (Event.isParsed c) = 0 ∧ events.countP (Event.isReplaced c) = 0

theorem SourceUnit.agreesWith_of_story {segments : List (List Token)} {items : List TopLevel}
    {events : List Event} {t? : Option Token} (hlen : segments.length = items.length)
    (h : events.filter Event.isTopLevel =
      TopLevel.story [] (segments.zip items) ++ Event.dispatches t?) :
    (items.foldl TopLevel.store .empty).AgreesWith items events := by
  have hitems : (segments.zip items).map Prod.snd = items :=
    List.map_snd_zip (Nat.le_of_eq hlen.symm)
  have hcount : ∀ p : Event → Bool, (∀ e, p e = true → e.isTopLevel = true) →
      (∀ kind position, p (.dispatch kind position) = false) →
      events.countP p = (TopLevel.story [] (segments.zip items)).countP p := by
    intro p hp hdispatch
    rw [← Event.countP_filter_isTopLevel hp events, h, List.countP_append]
    cases t? <;> simp [Event.dispatches, hdispatch]
  refine ⟨slot_foldl_store items, fun c => ?_⟩
  have hparsed := hcount (Event.isParsed c) (fun e he => by cases e <;> first | rfl | cases he)
    fun _ _ => rfl
  have hreplaced := hcount (Event.isReplaced c) (fun e he => by cases e <;> first | rfl | cases he)
    fun _ _ => rfl
  rw [TopLevel.countP_isParsed_story, hitems] at hparsed
  rw [TopLevel.countP_isReplaced_story, hitems] at hreplaced
  rw [slot_foldl_store, hparsed, hreplaced]
  cases hmine : items.filter (·.construct = c) with
  | nil => simp
  | cons item rest => simp

/-- The events of the top level tell of the constructs that are read, one after the other, and of
the token at which the reading stops. If that is the end token, the unit agrees with them. If
not, the text is refused for it: because no construct starts there, or for what keeps the one
that starts there from being read. -/
theorem SourceUnit.parse_story (text : String) :
    ∃ segments items u,
      (TokenReader.ofFeed (.ofText text.toList)).Completes segments items u ∧
      (events text).filter Event.isTopLevel =
        TopLevel.story [] (segments.zip items) ++ Event.dispatches u.ahead? ∧
      (∀ unit, SourceUnit.parse text = .ok unit →
        (∃ t ∈ u.ahead?, t.kind = .eos) ∧ unit.AgreesWith items (events text)) ∧
      ∀ e, SourceUnit.parse text = .error e → u.StopsWith e := by
  have hr := TokenReader.at_ofFeed text.toList
  obtain ⟨ts, ending, hup⟩ := (Place.ofText text.toList).exists_upcoming
  obtain ⟨segments, items, rest, htells⟩ := Grammar.tells_constructs (Nat.le_refl _) [] hr hup
    (Nat.lt_succ_of_le (TokenReader.length_le_weight hup hr))
  rw [htells.split] at hup
  obtain ⟨u, place, hhands, hu, hup⟩ := hr.hands hup
  have hweight := Nat.lt_succ_of_le hhands.weight_le
  have hahead := hu.ahead?_eq hup
  have hevents := htells.events
  rw [← hahead] at hevents
  have hresult : Stops _ ending rest (items.foldl TopLevel.store .empty)
      (SourceUnit.parse text) := htells.result
  have hunit : ∀ unit, SourceUnit.parse text = .ok unit →
      unit = items.foldl TopLevel.store .empty ∧ ∃ t ∈ u.ahead?, t.kind = .eos := by
    intro unit hok
    rw [hok] at hresult
    rw [hahead]
    exact hresult
  have herror : ∀ e, SourceUnit.parse text = .error e → u.StopsWith e := by
    intro e he
    rw [he] at hresult
    exact hresult.stopsWith hu hup hweight
  refine ⟨segments, items, u, ⟨htells.spells, hhands, ?_⟩, hevents, fun unit hok => ?_, herror⟩
  · cases hparse : SourceUnit.parse text with
    | error e => exact (herror e hparse).last
    | ok unit =>
        obtain ⟨-, t, ht, hk⟩ := hunit unit hparse
        intro t' ht' c hc
        cases ht.symm.trans ht'
        rw [hk] at hc
        cases hc
  · obtain ⟨rfl, heos⟩ := hunit unit hok
    exact ⟨heos, SourceUnit.agreesWith_of_story htells.spells.length_eq hevents⟩

theorem SourceUnit.parse_story_two_pragmas :
    ∃ unit segments items u, SourceUnit.parse "pragma a;pragma b;" = .ok unit ∧
      (TokenReader.ofFeed (.ofText "pragma a;pragma b;".toList)).Completes segments items u ∧
      (∃ t ∈ u.ahead?, t.kind = .eos) ∧
      unit.slot .pragmaDirective = (items.filter (·.construct = .pragmaDirective)).getLast? ∧
      (events "pragma a;pragma b;").countP (Event.isParsed .pragmaDirective) =
        (events "pragma a;pragma b;").countP (Event.isReplaced .pragmaDirective) + 1 ∧
      (events "pragma a;pragma b;").countP (Event.isParsed .importDirective) = 0 := by
  have hr := TokenReader.at_ofFeed "pragma a;pragma b;".toList
  have hup : (Place.ofText "pragma a;pragma b;".toList).Upcoming
      [⟨.kwPragma, "pragma".toList, ⟨1, 1⟩⟩, ⟨.identifier, ['a'], ⟨1, 8⟩⟩,
        ⟨.semicolon, [';'], ⟨1, 9⟩⟩, ⟨.kwPragma, "pragma".toList, ⟨1, 10⟩⟩,
        ⟨.identifier, ['b'], ⟨1, 17⟩⟩, ⟨.semicolon, [';'], ⟨1, 18⟩⟩] (.ok (.eos ⟨1, 19⟩)) :=
    .token (n := ⟨" a;pragma b;".toList, ⟨1, 7⟩⟩) rfl rfl
      (.token (n := ⟨";pragma b;".toList, ⟨1, 9⟩⟩) rfl rfl
        (.token (n := ⟨"pragma b;".toList, ⟨1, 10⟩⟩) rfl rfl
          (.token (n := ⟨" b;".toList, ⟨1, 16⟩⟩) rfl rfl
            (.token (n := ⟨";".toList, ⟨1, 18⟩⟩) rfl rfl
              (.token (n := ⟨[], ⟨1, 19⟩⟩) rfl rfl (.finished (n := ⟨[], ⟨1, 19⟩⟩) rfl rfl))))))
  have hweight : (TokenReader.ofFeed (.ofText "pragma a;pragma b;".toList)).weight = 18 := by
    decide +kernel
  have hparse : SourceUnit.parse "pragma a;pragma b;" = .ok
      ⟨some ⟨⟨1, 10⟩, [⟨.identifier, ['b'], ⟨1, 17⟩⟩], ⟨1, 18⟩⟩, none, none, none⟩ := by
    rw [SourceUnit.parse, TokenReader.parse, hweight]
    exact (Rule.run_describes (Production.sourceUnit.rule 19) hr hup).1
  obtain ⟨segments, items, u, hcompletes, -, hunit, -⟩ := parse_story "pragma a;pragma b;"
  obtain ⟨heos, hslot, hcounts⟩ := hunit _ hparse
  have hpragma := hcounts .pragmaDirective
  have himport := hcounts .importDirective
  rw [if_pos (by simp [slot])] at hpragma
  rw [if_neg (by simp [slot])] at himport
  exact ⟨_, segments, items, u, hparse, hcompletes, heos, hslot _, hpragma, himport.1⟩

end SoliditySource
