import SoliditySource.Source.Utf8

/-! # Reading through a buffer

A source arrives in chunks: bytes, or a failure to read. The bytes of the chunk in front
are at hand, and what is used up of them is gone. A rune is gathered from as many
fillings of the buffer as it takes: an interruption is passed over, and an empty chunk
is an end of input that need not be the last word.
-/

namespace SoliditySource

/-- Why reading failed. Of the kinds a source can fail with, reading tells only
`interrupted` apart, and reports malformed bytes as `invalidData`. The other three stand
for all the rest, which are passed on as they come. -/
inductive FailureKind where
  | interrupted
  | brokenPipe
  | unexpectedEnd
  | invalidData
  | other
  deriving DecidableEq, Repr

structure ReadFailure where
  kind : FailureKind
  message : String
  deriving DecidableEq, Repr

/-- The failure reported for bytes that are not UTF-8. -/
def ReadFailure.malformed : ReadFailure := ⟨.invalidData, "source is not valid UTF-8"⟩

def ReadFailure.isInterruption (f : ReadFailure) : Bool := f.kind = .interrupted

/-- One turn of reading: some bytes, or a failure. -/
inductive Chunk where
  | data (bytes : List UInt8)
  | failure (cause : ReadFailure)
  deriving DecidableEq, Repr

namespace Chunk

def isInterruption : Chunk → Bool
  | data _ => false
  | failure cause => cause.isInterruption

/-- Bytes that are never used up, because no rune starts with the first of them. -/
def isStuck : Chunk → Bool
  | data (first :: _) => (Utf8.following first).isNone
  | _ => false

def size : Chunk → Nat
  | data bytes => bytes.length + 1
  | failure _ => 1

theorem isStuck_iff {chunk : Chunk} :
    chunk.isStuck = true ↔
      ∃ first more, chunk = data (first :: more) ∧ Utf8.following first = none := by
  unfold isStuck
  split
  · simp
  · next hne =>
      refine ⟨fun h => absurd h (by simp), ?_⟩
      rintro ⟨first, more, rfl, -⟩
      exact absurd rfl (hne first more)

end Chunk

/-- The answer to a request for a rune. -/
inductive Delivery where
  | rune (value : Char)
  | pause
  | fault (cause : ReadFailure)
  deriving DecidableEq, Repr

def Delivery.ofBytes (bytes : List UInt8) : Delivery :=
  match Utf8.decode? bytes with
  | some c => .rune c
  | none => .fault .malformed

/-- The chunks that are left of a source, the first one without its used bytes. -/
structure Buffer where
  chunks : List Chunk
  deriving DecidableEq, Repr

namespace Buffer

inductive Filling where
  | bytes (first : UInt8) (more : List UInt8)
  | ended
  | failed (cause : ReadFailure)
  deriving DecidableEq, Repr

/-- Fills the buffer. Bytes stay until they are used; an empty chunk and a failure are
shown once. -/
def fill (b : Buffer) : Filling × Buffer :=
  match b.chunks with
  | [] => (.ended, b)
  | .data [] :: rest => (.ended, ⟨rest⟩)
  | .data (first :: more) :: _ => (.bytes first more, b)
  | .failure cause :: rest => (.failed cause, ⟨rest⟩)

def consume (n : Nat) (b : Buffer) : Buffer :=
  match b.chunks with
  | .data bytes :: rest =>
      match bytes.drop n with
      | [] => ⟨rest⟩
      | first :: more => ⟨.data (first :: more) :: rest⟩
  | _ => b

/-- A bound on the number of bytes and turns that are left. -/
def size (b : Buffer) : Nat := b.chunks.foldr (fun chunk n => chunk.size + n) 0

theorem size_dropWhile (p : Chunk → Bool) (chunks : List Chunk) :
    size ⟨chunks.dropWhile p⟩ ≤ size ⟨chunks⟩ := by
  induction chunks with
  | nil => exact Nat.le_refl _
  | cons chunk rest ih =>
      rw [List.dropWhile_cons]
      split
      · refine Nat.le_trans ih ?_
        simp only [size, List.foldr_cons]
        omega
      · exact Nat.le_refl _

theorem fill_bytes {b rest : Buffer} {first : UInt8} {more : List UInt8}
    (h : b.fill = (.bytes first more, rest)) :
    rest = b ∧ ∃ later, b.chunks = .data (first :: more) :: later := by
  unfold fill at h
  split at h
  · cases h
  · cases h
  · next x xs later hc => cases h; exact ⟨rfl, later, hc⟩
  · cases h

theorem size_fill_failed {b rest : Buffer} {cause : ReadFailure}
    (h : b.fill = (.failed cause, rest)) : rest.size < b.size := by
  unfold fill at h
  split at h
  · cases h
  · cases h
  · cases h
  · next later hc =>
      cases h
      simp [size, hc, Chunk.size]

theorem size_consume {b : Buffer} {first : UInt8} {more : List UInt8} {later : List Chunk}
    {n : Nat} (hc : b.chunks = .data (first :: more) :: later) (hn : 0 < n) :
    (b.consume n).size < b.size := by
  have hl : ((first :: more).drop n).length < (first :: more).length := by
    rw [List.length_drop, List.length_cons]
    omega
  unfold consume
  rw [hc]
  dsimp only
  split
  · simp [size, hc, Chunk.size]
  · next x xs hd =>
      rw [hd] at hl
      simp only [size, hc, List.foldr_cons, Chunk.size]
      omega

/-- How wide the rune is that starts with the bytes `held`, or else with `first`. -/
def widthOf (held : List UInt8) (width : Nat) (first : UInt8) : Option Nat :=
  if held = [] then (Utf8.following first).map (· + 1) else some width

theorem lt_widthOf {held : List UInt8} {width wide : Nat} {first : UInt8}
    (hw : held.length < width) (h : widthOf held width first = some wide) :
    held.length < wide := by
  unfold widthOf at h
  split at h
  · next hh =>
      obtain ⟨n, -, rfl⟩ := Option.map_eq_some_iff.mp h
      rw [hh]
      exact Nat.succ_pos n
  · cases h; exact hw

/-- Gathers the bytes of a rune of the given width, of which `held` are there. The first
byte tells the width. Held bytes are lost when the input ends or fails inside the rune. -/
def gather (held : List UInt8) (width : Nat) (b : Buffer) : Delivery × Buffer :=
  if _hw : held.length < width then
    match _h : b.fill with
    | (.failed cause, rest) =>
        if cause.isInterruption then gather held width rest else (.fault cause, rest)
    | (.ended, rest) => (if held = [] then .pause else .fault .malformed, rest)
    | (.bytes first more, _) =>
        match _hwide : widthOf held width first with
        | none => (.fault .malformed, b)
        | some wide =>
            let n := wide - held.length
            gather (held ++ (first :: more).take n) wide (b.consume n)
  else (.ofBytes held, b)
termination_by b.size
decreasing_by
  · exact size_fill_failed _h
  · obtain ⟨-, later, hc⟩ := fill_bytes _h
    exact size_consume hc (Nat.sub_pos_of_lt (lt_widthOf _hw _hwide))

def readRune (b : Buffer) : Delivery × Buffer := b.gather [] 1

theorem readRune_pause (later : List Chunk) :
    readRune ⟨.data [] :: later⟩ = (.pause, ⟨later⟩) := by
  rw [readRune, gather, dif_pos (by decide)]
  rfl

theorem readRune_fault {cause : ReadFailure} (hi : cause.isInterruption = false)
    (later : List Chunk) :
    readRune ⟨.failure cause :: later⟩ = (.fault cause, ⟨later⟩) := by
  rw [readRune, gather, dif_pos (by decide)]
  show (if cause.isInterruption then gather [] 1 ⟨later⟩ else (.fault cause, ⟨later⟩)) = _
  rw [hi, if_neg Bool.false_ne_true]

theorem size_fill_ended {b rest : Buffer} (h : b.fill = (.ended, rest))
    (hb : b.chunks ≠ []) : rest.size < b.size := by
  unfold fill at h
  split at h
  · next hc => exact absurd hc hb
  · next later hc => cases h; simp [size, hc, Chunk.size]
  · cases h
  · cases h

theorem size_fill_le {b : Buffer} : b.fill.2.size ≤ b.size := by
  unfold fill
  split
  · exact Nat.le_refl _
  · next hc => simp [size, hc, Chunk.size]
  · exact Nat.le_refl _
  · next hc => simp [size, hc, Chunk.size]

theorem size_gather (held : List UInt8) (width : Nat) (b : Buffer) :
    (b.gather held width).2.size ≤ b.size := by
  fun_induction gather held width b with
  | case1 held width b hw cause rest hf hi ih =>
      exact Nat.le_trans ih (Nat.le_of_lt (size_fill_failed hf))
  | case2 held width b hw cause rest hf hi => exact Nat.le_of_lt (size_fill_failed hf)
  | case3 held width b hw rest hf =>
      have h := size_fill_le (b := b)
      rw [hf] at h
      exact h
  | case4 held width b hw first more rest hf hwide => exact Nat.le_refl _
  | case5 held width b hw first more rest hf wide hwide n ih =>
      obtain ⟨-, later, hc⟩ := fill_bytes hf
      have hs := size_consume hc (Nat.sub_pos_of_lt (lt_widthOf hw hwide))
      exact Nat.le_trans ih (Nat.le_of_lt hs)
  | case6 held width b hw => exact Nat.le_refl _

/-- A request uses something up unless nothing is left or the chunk in front is stuck. -/
theorem size_readRune {b : Buffer} {chunk : Chunk} {later : List Chunk}
    (hc : b.chunks = chunk :: later) (hs : chunk.isStuck = false) :
    b.readRune.2.size < b.size := by
  unfold readRune gather
  rw [dif_pos (by decide)]
  split
  · next cause rest hf =>
      have hlt := size_fill_failed hf
      split
      · exact Nat.lt_of_le_of_lt (size_gather [] 1 rest) hlt
      · exact hlt
  · next rest hf => exact size_fill_ended hf (by rw [hc]; exact List.cons_ne_nil _ _)
  · next first more rest hf =>
      obtain ⟨-, others, hc'⟩ := fill_bytes hf
      rw [hc] at hc'
      cases hc'
      split
      · next hn => simp [widthOf] at hn; simp [Chunk.isStuck, hn] at hs
      · next wide hwide =>
          have hlt := size_consume hc (Nat.sub_pos_of_lt (lt_widthOf (by decide) hwide))
          exact Nat.lt_of_le_of_lt (size_gather _ _ _) hlt

end Buffer

end SoliditySource
