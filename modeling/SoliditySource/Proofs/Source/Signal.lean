import SoliditySource.Source.Feed

/-! # Chunks without borders

What a reader of single bytes is told is the same for all chunks that hold the same bytes:
the borders between chunks and the interruptions leave no trace in it. Runes are put
together byte by byte from these signals, and this is shown to be what reading rune by
rune through a buffer gives (`Feed.ofBuffer_eq_assemble`): gathering several bytes of a
rune at once, from one filling of the buffer or from many, makes no difference.
-/

namespace SoliditySource

/-- What a reader of single bytes is told. -/
inductive Signal where
  | byte (value : UInt8)
  | pause
  | fault (cause : ReadFailure)
  deriving DecidableEq, Repr

namespace Signal

/-- The bytes, ends of input and failures in a run of chunks. -/
def ofChunks : List Chunk → List Signal
  | [] => []
  | .data [] :: rest => .pause :: ofChunks rest
  | .data (b :: bs) :: rest => (b :: bs).map .byte ++ ofChunks rest
  | .failure cause :: rest =>
      if cause.isInterruption then ofChunks rest else .fault cause :: ofChunks rest

theorem ofChunks_data {bytes : List UInt8} (hb : bytes ≠ []) (rest : List Chunk) :
    ofChunks (.data bytes :: rest) = bytes.map .byte ++ ofChunks rest := by
  cases bytes with
  | nil => exact absurd rfl hb
  | cons b bs => rfl

theorem ofChunks_bytes (bytes : List UInt8) :
    ofChunks (if bytes = [] then [] else [.data bytes]) = bytes.map .byte := by
  by_cases hb : bytes = []
  · rw [if_pos hb, hb]; rfl
  · rw [if_neg hb, ofChunks_data hb, ofChunks, List.append_nil]

/-- Interruptions in front leave no trace. -/
theorem ofChunks_dropWhile (chunks : List Chunk) :
    ofChunks (chunks.dropWhile Chunk.isInterruption) = ofChunks chunks := by
  induction chunks with
  | nil => rfl
  | cons chunk rest ih =>
      rw [List.dropWhile_cons]
      split
      · next hi =>
          rw [ih]
          cases chunk with
          | data bytes => simp [Chunk.isInterruption] at hi
          | failure cause =>
              rw [ofChunks, if_pos (by simpa [Chunk.isInterruption] using hi)]
      · rfl

/-- Using up bytes takes as many signals away. -/
theorem ofChunks_consume {b : Buffer} {bytes : List UInt8} {later : List Chunk}
    (hc : b.chunks = .data bytes :: later) (n : Nat) :
    ofChunks (b.consume n).chunks = (bytes.drop n).map .byte ++ ofChunks later := by
  unfold Buffer.consume
  rw [hc]
  dsimp only
  split
  · next hd => simp [hd]
  · next x xs hd => rw [hd, ofChunks_data (List.cons_ne_nil x xs)]

end Signal

namespace Feed

/-- Puts bytes together into runes. `held` are the bytes of an unfinished rune and
`missing` tells how many more it needs; they are lost when the input ends or fails
inside the rune. -/
def assemble (held : List UInt8) (missing : Nat) : List Signal → Feed
  | [] => if held = [] then finished else next (.fault .malformed) finished
  | .pause :: rest =>
      next (if held = [] then .pause else .fault .malformed) (assemble [] 0 rest)
  | .fault cause :: rest => next (.fault cause) (assemble [] 0 rest)
  | .byte b :: rest =>
      if held = [] then
        match Utf8.following b with
        | none => blocked
        | some 0 => next (.ofBytes [b]) (assemble [] 0 rest)
        | some (n + 1) => assemble [b] (n + 1) rest
      else
        match missing with
        | 0 => next (.ofBytes (held ++ [b])) (assemble [] 0 rest)
        | 1 => next (.ofBytes (held ++ [b])) (assemble [] 0 rest)
        | n + 2 => assemble (held ++ [b]) (n + 1) rest

/-! ## Several bytes at once -/

theorem assemble_more {held bytes : List UInt8} {missing : Nat} (hh : held ≠ [])
    (hm : bytes.length < missing) (rest : List Signal) :
    assemble held missing (bytes.map .byte ++ rest) =
      assemble (held ++ bytes) (missing - bytes.length) rest := by
  induction bytes generalizing held missing with
  | nil => simp
  | cons b bs ih =>
      rw [List.length_cons] at hm
      obtain ⟨n, rfl⟩ : ∃ n, missing = n + 2 := ⟨missing - 2, by omega⟩
      rw [List.map_cons, List.cons_append, assemble, if_neg hh]
      rw [ih (by simp) (by omega), List.append_assoc, List.singleton_append, List.length_cons]
      congr 1
      omega

theorem assemble_whole {held bytes : List UInt8} {missing : Nat} (hh : held ≠ [])
    (hp : 0 < missing) (hm : missing ≤ bytes.length) (rest : List Signal) :
    assemble held missing (bytes.map .byte ++ rest) =
      next (.ofBytes (held ++ bytes.take missing))
        (assemble [] 0 ((bytes.drop missing).map .byte ++ rest)) := by
  induction bytes generalizing held missing with
  | nil => rw [List.length_nil] at hm; omega
  | cons b bs ih =>
      rw [List.length_cons] at hm
      rw [List.map_cons, List.cons_append]
      cases missing with
      | zero => omega
      | succ missing =>
          cases missing with
          | zero => rw [assemble, if_neg hh]; simp
          | succ n =>
              rw [assemble, if_neg hh, ih (by simp) (by omega) (by omega)]
              simp

/-! ## Reading through a buffer -/

/-- Inside a rune the bytes at hand are taken together, and the loop goes on for the rest. -/
theorem assemble_gather {held : List UInt8} {width : Nat} {b : Buffer} (hh : held ≠ [])
    (hw : held.length < width) :
    assemble held (width - held.length) (Signal.ofChunks b.chunks) =
      next (b.gather held width).1
        (assemble [] 0 (Signal.ofChunks (b.gather held width).2.chunks)) := by
  fun_induction Buffer.gather held width b with
  | case1 held width b _ cause rest hf hi ih =>
      rw [← ih hh hw]
      unfold Buffer.fill at hf
      split at hf
      · cases hf
      · cases hf
      · cases hf
      · next hc => cases hf; rw [hc, Signal.ofChunks, if_pos hi]
  | case2 held width b _ cause rest hf hi =>
      unfold Buffer.fill at hf
      split at hf
      · cases hf
      · cases hf
      · cases hf
      · next hc => cases hf; rw [hc, Signal.ofChunks, if_neg hi, assemble]
  | case3 held width b _ rest hf =>
      unfold Buffer.fill at hf
      split at hf
      · next hc => cases hf; simp [hc, Signal.ofChunks, assemble, hh]
      · next hc => cases hf; simp [hc, Signal.ofChunks, assemble, hh]
      · cases hf
      · cases hf
  | case4 held width b _ first more rest hf hwide => simp [Buffer.widthOf, hh] at hwide
  | case5 held width b _ first more rest hf wide hwide n ih =>
      obtain rfl : wide = width := by simpa [Buffer.widthOf, hh] using hwide.symm
      obtain ⟨-, later, hc⟩ := Buffer.fill_bytes hf
      have hs := Signal.ofChunks_consume hc n
      have hpos : 0 < n := Nat.sub_pos_of_lt hw
      rw [hc, Signal.ofChunks_data (List.cons_ne_nil first more)]
      by_cases hle : n ≤ (first :: more).length
      · -- the filling holds all that is missing
        have hfull : ¬ (held ++ (first :: more).take n).length < wide := by
          rw [List.length_append, List.length_take]
          omega
        rw [assemble_whole hh hpos hle, ← hs, Buffer.gather, dif_neg hfull]
      · -- the filling is used up, and the rune goes on
        have htake : (first :: more).take n = first :: more :=
          List.take_of_length_le (by omega)
        have hlen : (held ++ (first :: more)).length < wide := by
          rw [List.length_append]
          omega
        have hdrop : (first :: more).drop n = [] := List.drop_of_length_le (by omega)
        rw [htake] at ih ⊢
        rw [assemble_more hh (by omega), ← ih (by simp) hlen, hs, hdrop, List.length_append]
        simp only [List.map_nil, List.nil_append]
        congr 1
        omega
  | case6 held width b hw' => exact absurd hw hw'

/-- A rune that starts with a byte at hand is read as a whole. -/
theorem assemble_readRune {b : Buffer} {first : UInt8} {more : List UInt8}
    {later : List Chunk} (hc : b.chunks = .data (first :: more) :: later)
    (hf : Utf8.following first ≠ none) :
    assemble [] 0 (Signal.ofChunks b.chunks) =
      next b.readRune.1 (assemble [] 0 (Signal.ofChunks b.readRune.2.chunks)) := by
  obtain ⟨k, hk⟩ := Option.ne_none_iff_exists'.mp hf
  have hread : b.readRune =
      (b.consume (k + 1)).gather ((first :: more).take (k + 1)) (k + 1) := by
    rw [Buffer.readRune, Buffer.gather, dif_pos (by decide)]
    split
    · next hfill => simp [Buffer.fill, hc] at hfill
    · next hfill => simp [Buffer.fill, hc] at hfill
    · next x xs rest hfill =>
        simp only [Buffer.fill, hc, Prod.mk.injEq, Buffer.Filling.bytes.injEq] at hfill
        obtain ⟨⟨rfl, rfl⟩, rfl⟩ := hfill
        split
        · next hn => simp [Buffer.widthOf, hk] at hn
        · next wide hn =>
            obtain rfl : wide = k + 1 := by simpa [Buffer.widthOf, hk] using hn.symm
            simp
  have hs := Signal.ofChunks_consume hc (k + 1)
  rw [hread, hc, Signal.ofChunks_data (List.cons_ne_nil first more), List.map_cons,
    List.cons_append, assemble, if_pos rfl, hk]
  by_cases hle : k ≤ more.length
  · have hfull : ¬ ((first :: more).take (k + 1)).length < k + 1 := by
      rw [List.length_take, List.length_cons]
      omega
    rw [Buffer.gather, dif_neg hfull, hs, List.drop_succ_cons, List.take_succ_cons]
    cases k with
    | zero => simp
    | succ k => simpa using assemble_whole (List.cons_ne_nil first []) (Nat.succ_pos k) hle _
  · have htake : (first :: more).take (k + 1) = first :: more :=
      List.take_of_length_le (by rw [List.length_cons]; omega)
    have hdrop : (first :: more).drop (k + 1) = [] :=
      List.drop_of_length_le (by rw [List.length_cons]; omega)
    rw [htake, ← assemble_gather (List.cons_ne_nil first more) (by rw [List.length_cons]; omega),
      hs, hdrop]
    obtain ⟨j, rfl⟩ : ∃ j, k = j + 1 := ⟨k - 1, by omega⟩
    dsimp only
    rw [assemble_more (List.cons_ne_nil first []) (by omega), List.length_cons]
    simp only [List.map_nil, List.nil_append, List.singleton_append]
    congr 1
    omega

/-- Reading rune by rune through a buffer gives what the signals of its chunks give. -/
theorem ofBuffer_eq_assemble (b : Buffer) :
    ofBuffer b = assemble [] 0 (Signal.ofChunks b.chunks) := by
  fun_induction ofBuffer b with
  | case1 b hb => rw [← Signal.ofChunks_dropWhile, hb, Signal.ofChunks, assemble, if_pos rfl]
  | case2 b chunk later hb hs =>
      rw [← Signal.ofChunks_dropWhile, hb]
      obtain ⟨first, more, rfl, hn⟩ := Chunk.isStuck_iff.mp hs
      simp [Signal.ofChunks, assemble, hn]
  | case3 b chunk later hb hs answer ih =>
      rw [← Signal.ofChunks_dropWhile, hb, ih]
      show next (Buffer.readRune ⟨chunk :: later⟩).1
          (assemble [] 0 (Signal.ofChunks (Buffer.readRune ⟨chunk :: later⟩).2.chunks)) = _
      match chunk with
      | .data (first :: more) =>
          have hn : Utf8.following first ≠ none := fun hn =>
            hs (Chunk.isStuck_iff.mpr ⟨first, more, rfl, hn⟩)
          exact (assemble_readRune (b := ⟨.data (first :: more) :: later⟩) rfl hn).symm
      | .data [] => rw [Buffer.readRune_pause, Signal.ofChunks, assemble, if_pos rfl]
      | .failure cause =>
          have hi : cause.isInterruption = false := by
            have h := List.head?_dropWhile_not Chunk.isInterruption b.chunks
            simpa [hb, Chunk.isInterruption] using h
          rw [Buffer.readRune_fault hi, Signal.ofChunks, if_neg (by simp [hi]), assemble]

end Feed

end SoliditySource
