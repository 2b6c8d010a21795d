import SoliditySource.Proofs.Source.Signal

/-! # Texts as sources

A text that is read through its encoding is delivered rune by rune.
-/

namespace SoliditySource.Feed

/-- The feed that delivers the given runes. -/
def runes : List Char → Feed
  | [] => finished
  | c :: cs => next (.rune c) (runes cs)

/-- The bytes of a rune are put together again. -/
theorem assemble_rune (c : Char) (rest : List Signal) :
    assemble [] 0 ((String.utf8EncodeChar c).map .byte ++ rest) =
      next (.rune c) (assemble [] 0 rest) := by
  obtain ⟨b, more, he, hf⟩ := Utf8.following_utf8EncodeChar c
  have hd : Delivery.ofBytes (b :: more) = .rune c := by
    rw [Delivery.ofBytes, Utf8.decode?_eq_some_iff.mpr he]
  rw [he, List.map_cons, List.cons_append, assemble, if_pos rfl, hf]
  by_cases hm : more = []
  · subst hm
    rw [List.length_nil, hd]
    rfl
  · have hpos : 0 < more.length := List.length_pos_iff.mpr hm
    have hwhole := assemble_whole (List.cons_ne_nil b []) hpos (Nat.le_refl _) rest
    obtain ⟨n, hn⟩ : ∃ n, more.length = n + 1 := ⟨more.length - 1, by omega⟩
    rw [List.take_length, List.drop_length, List.singleton_append, hd] at hwhole
    rw [hn] at hwhole ⊢
    exact hwhole

theorem ofText_eq_runes (text : List Char) : ofText text = runes text := by
  rw [ofText, ofBytes, ofChunks, ofBuffer_eq_assemble, Signal.ofChunks_bytes]
  induction text with
  | nil => rfl
  | cons c cs ih =>
      have he : Utf8.encode (c :: cs) = String.utf8EncodeChar c ++ Utf8.encode cs := rfl
      rw [he, List.map_append, assemble_rune, ih, runes]

end SoliditySource.Feed
