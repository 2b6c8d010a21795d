import SoliditySource.Source.Buffer

/-! # What a source delivers

Reading runes from a buffer again and again gives a `Feed`: the answer to each request
for a rune, in order. Nobody else reads from the buffer, so the answers do not depend on
who asks or when.

A byte that cannot start a rune is never got past, so from there on every request
is answered by the same failure (`blocked`).
-/

namespace SoliditySource

/-- The answers to all requests for a rune, in order. After the last entry the
answer stays the same: the end of the source, or the failure to get past a byte. -/
inductive Feed where
  | finished
  | blocked
  | next (delivery : Delivery) (rest : Feed)
  deriving DecidableEq, Repr

namespace Feed

def pull : Feed → Delivery × Feed
  | finished => (.pause, finished)
  | blocked => (.fault .malformed, blocked)
  | next delivery rest => (delivery, rest)

def length : Feed → Nat
  | finished => 0
  | blocked => 0
  | next _ rest => rest.length + 1

/-- The answers of a buffer. Interruptions in front are passed over first, so that a
source which holds nothing else is finished. -/
def ofBuffer (b : Buffer) : Feed :=
  match _hb : b.chunks.dropWhile Chunk.isInterruption with
  | [] => finished
  | chunk :: later =>
      if _hs : chunk.isStuck then blocked
      else
        let answer := Buffer.readRune ⟨chunk :: later⟩
        next answer.1 (ofBuffer answer.2)
termination_by b.size
decreasing_by
  have hlt := Buffer.size_readRune (b := ⟨chunk :: later⟩) rfl (by simpa using _hs)
  have hle := Buffer.size_dropWhile Chunk.isInterruption b.chunks
  rw [_hb] at hle
  exact Nat.lt_of_lt_of_le hlt hle

def ofChunks (chunks : List Chunk) : Feed := ofBuffer ⟨chunks⟩

/-- The feed of bytes that are at hand from the start. -/
def ofBytes (bytes : List UInt8) : Feed := ofChunks (if bytes = [] then [] else [.data bytes])

def ofText (text : List Char) : Feed := ofBytes (Utf8.encode text)

theorem length_pull (feed : Feed) : feed.pull.2.length ≤ feed.length := by
  cases feed with
  | finished => exact Nat.le_refl _
  | blocked => exact Nat.le_refl _
  | next d rest => exact Nat.le_succ _

theorem length_pull_rune {feed rest : Feed} {c : Char} (h : feed.pull = (.rune c, rest)) :
    rest.length < feed.length := by
  cases feed with
  | finished => simp [pull] at h
  | blocked => simp [pull] at h
  | next d tail =>
      simp only [pull, Prod.mk.injEq] at h
      simp [length, h.2]

end Feed

end SoliditySource
