import Mathlib.Data.List.DropRight
import Mathlib.Data.List.Induction
import SoliditySource.Token.SizedType

/-! # How sizes are written

Reading a number forgets leading zeros and a plus sign. The tests that stand beside the reading
leave one way to write a size, the decimal without leading zeros, as long as no plus sign comes
first. Sizes are small, so that the width into which numbers are read does not matter.
-/

namespace SoliditySource.SizedType

/-! ## Decimals -/

theorem value_concat (digits : List Char) (c : Char) :
    value (digits ++ [c]) = 10 * value digits + (c.toNat - '0'.toNat) := by
  simp [value, List.foldl_append]

/-- A digit is the one that its value is written with. -/
theorem toDigits_of_isDigit {c : Char} (h : c.isDigit = true) :
    c.toNat - '0'.toNat < 10 ∧ Nat.toDigits 10 (c.toNat - '0'.toNat) = [c] := by
  have hrange := Char.isDigit_iff_toNat.mp h
  have hzero : '0'.toNat = 48 := rfl
  have hnine : '9'.toNat = 57 := rfl
  have hlt : c.toNat - '0'.toNat < 10 := by omega
  have hchar : Nat.digitChar (c.toNat - '0'.toNat) = c := by
    apply Char.toNat_inj.mp
    rw [Nat.toNat_digitChar_of_lt_ten hlt]
    omega
  exact ⟨hlt, by rw [Nat.toDigits_of_lt_base hlt, hchar]⟩

theorem value_toDigits (n : Nat) : value (Nat.toDigits 10 n) = n := by
  rw [value, ← Nat.ofDigitChars_eq_foldl, Nat.ofDigitChars_ten_toDigits]

/-- Digits that do not start with a zero are the decimal of their value. By induction from the
right: the last digit is the remainder. -/
theorem toDigits_value {digits : List Char} (hne : digits ≠ [])
    (hall : ∀ c ∈ digits, c.isDigit = true) (hzero : digits.head? ≠ some '0') :
    0 < value digits ∧ Nat.toDigits 10 (value digits) = digits := by
  induction digits using List.reverseRecOn with
  | nil => exact absurd rfl hne
  | append_singleton front c ih =>
      have hc : c.isDigit = true := hall c (by simp)
      obtain ⟨hlt, hdigit⟩ := toDigits_of_isDigit hc
      rw [value_concat]
      by_cases hfront : front = []
      · have hpos : 0 < c.toNat - '0'.toNat := by
          apply Nat.pos_of_ne_zero
          intro hzero'
          rw [hzero'] at hdigit
          simp [hfront, ← hdigit] at hzero
        have hvalue : 10 * value [] + (c.toNat - '0'.toNat) = c.toNat - '0'.toNat := by
          rw [show value [] = 0 from rfl, Nat.mul_zero, Nat.zero_add]
        rw [hfront, hvalue, List.nil_append]
        exact ⟨hpos, hdigit⟩
      · have hhead : front.head? ≠ some '0' := by
          intro hfirst
          apply hzero
          rw [List.head?_append_of_ne_nil _ hfront, hfirst]
        have hrest := ih hfront (fun d hd => hall d (by simp [hd])) hhead
        have happend := Nat.toDigits_append_toDigits (by decide) hrest.1 hlt
        rw [hrest.2, hdigit] at happend
        exact ⟨by omega, happend.symm⟩

/-- No decimal but that of zero starts with a zero. -/
theorem head?_toDigits {n : Nat} (h : 0 < n) : (Nat.toDigits 10 n).head? ≠ some '0' := by
  induction n using Nat.strongRecOn with
  | _ n ih =>
      by_cases hlt : n < 10
      · rw [Nat.toDigits_of_lt_base hlt]
        have hdigit : ∀ m < 10, 0 < m → Nat.digitChar m ≠ '0' := by decide
        simpa using hdigit n hlt h
      · have hle : 10 ≤ n := Nat.le_of_not_lt hlt
        rw [Nat.toDigits_of_base_le (by decide) hle,
          List.head?_append_of_ne_nil _ Nat.toDigits_ne_nil]
        exact ih (n / 10) (by omega) (by omega)

theorem isDigit_of_mem_toDigits {n : Nat} {c : Char} (h : c ∈ Nat.toDigits 10 n) :
    c.isDigit = true :=
  Nat.isDigit_of_mem_toDigits (by decide) (by decide) h

/-! ## Sizes -/

section

variable {fits : Nat → Bool} {text : List Char}

theorem number?_eq_some_iff (hplus : text.head? ≠ some '+') {n : Nat} :
    number? text = some n ↔
      text ≠ [] ∧ (∀ c ∈ text, c.isDigit = true) ∧ value text < UInt32.size ∧ value text = n := by
  have hdigits : number? text =
      if text ≠ [] ∧ text.all Char.isDigit ∧ value text < UInt32.size then some (value text)
      else none := by
    unfold number?
    cases text with
    | nil => rfl
    | cons c rest =>
        have hc : c ≠ '+' := fun hc => hplus (by rw [hc]; rfl)
        simp [hc]
  rw [hdigits]
  simp [and_assoc]

/-- A size is the decimal of a positive number that fits. -/
theorem isSize_iff (hplus : text.head? ≠ some '+') (hfits : ∀ n, fits n = true → n < UInt32.size) :
    isSize fits text = true ↔ ∃ n, 0 < n ∧ fits n = true ∧ text = Nat.toDigits 10 n := by
  simp only [isSize, Bool.and_eq_true, Option.any_eq_true, decide_eq_true_eq]
  constructor
  · rintro ⟨⟨n, hn, hfit⟩, hzero⟩
    obtain ⟨hne, hall, -, rfl⟩ := (number?_eq_some_iff hplus).mp hn
    obtain ⟨hpos, htext⟩ := toDigits_value hne hall hzero
    exact ⟨_, hpos, hfit, htext.symm⟩
  · rintro ⟨n, hpos, hfit, rfl⟩
    have hvalue := value_toDigits n
    refine ⟨⟨n, (number?_eq_some_iff hplus).mpr ⟨Nat.toDigits_ne_nil, ?_, ?_, hvalue⟩, hfit⟩, ?_⟩
    · exact fun c hc => isDigit_of_mem_toDigits hc
    · rw [hvalue]
      exact hfits n hfit
    · exact head?_toDigits hpos

end

/-- The numbers of bits that integers and fixed point numbers have. -/
def FitsBits (n : Nat) : Prop := 8 ≤ n ∧ n ≤ 256 ∧ n % 8 = 0

instance (n : Nat) : Decidable (FitsBits n) :=
  inferInstanceAs (Decidable (8 ≤ n ∧ n ≤ 256 ∧ n % 8 = 0))

section

variable {text : List Char}

/-- No size comes near the numbers that 32 bits cannot hold. -/
theorem lt_size {n : Nat} (h : n ≤ 256) : n < UInt32.size := Nat.lt_of_le_of_lt h (by decide)

theorem isBits_iff (hplus : text.head? ≠ some '+') :
    isBits text = true ↔ ∃ n, FitsBits n ∧ text = Nat.toDigits 10 n := by
  have hbound : ∀ n, (8 ≤ n && n ≤ 256 && n % 8 == 0) = true → n < UInt32.size := by
    intro n h
    simp only [Bool.and_eq_true, decide_eq_true_eq] at h
    exact lt_size (by omega)
  rw [isBits, isSize_iff hplus hbound]
  constructor
  · rintro ⟨n, -, hfit, htext⟩
    simp only [Bool.and_eq_true, decide_eq_true_eq, beq_iff_eq, and_assoc] at hfit
    exact ⟨n, hfit, htext⟩
  · rintro ⟨n, hfit, htext⟩
    obtain ⟨hlow, hhigh, hmod⟩ := hfit
    exact ⟨n, by omega, by simp [hlow, hhigh, hmod], htext⟩

theorem isBytes_iff (hplus : text.head? ≠ some '+') :
    isBytes text = true ↔ ∃ n, (1 ≤ n ∧ n ≤ 32) ∧ text = Nat.toDigits 10 n := by
  have hbound : ∀ n, (1 ≤ n && n ≤ 32) = true → n < UInt32.size := by
    intro n h
    simp only [Bool.and_eq_true, decide_eq_true_eq] at h
    exact lt_size (by omega)
  rw [isBytes, isSize_iff hplus hbound]
  constructor
  · rintro ⟨n, -, hfit, htext⟩
    exact ⟨n, by simpa using hfit, htext⟩
  · rintro ⟨n, hfit, htext⟩
    exact ⟨n, hfit.1, by simpa using hfit, htext⟩

/-- Zero decimal places are written with a zero, which no other size may start with. -/
theorem isPlaces_iff (hplus : text.head? ≠ some '+') :
    isPlaces text = true ↔ ∃ n, n ≤ 80 ∧ text = Nat.toDigits 10 n := by
  have hbound : ∀ n, decide (n ≤ 80) = true → n < UInt32.size := by
    intro n h
    have hle : n ≤ 80 := of_decide_eq_true h
    exact lt_size (by omega)
  simp only [isPlaces, Bool.or_eq_true, decide_eq_true_eq, isSize_iff hplus hbound]
  constructor
  · rintro (rfl | ⟨n, -, hfit, htext⟩)
    · exact ⟨0, Nat.zero_le _, rfl⟩
    · exact ⟨n, hfit, htext⟩
  · rintro ⟨n, hfit, htext⟩
    cases Nat.eq_zero_or_pos n with
    | inl hzero =>
        rw [hzero] at htext
        exact .inl htext
    | inr hpos => exact .inr ⟨n, hpos, hfit, htext⟩

theorem not_mem_toDigits {c : Char} (hc : c.isDigit = false) (n : Nat) :
    c ∉ Nat.toDigits 10 n := by
  intro hmem
  rw [isDigit_of_mem_toDigits hmem] at hc
  cases hc

/-- The first `x` stands between two decimals, since no digit is one. -/
theorem isFixed_iff (hplus : '+' ∉ text) :
    isFixed text = true ↔ ∃ m n, FitsBits m ∧ n ≤ 80 ∧
      text = Nat.toDigits 10 m ++ 'x' :: Nat.toDigits 10 n := by
  have hhead : ∀ part : List Char, (∀ c ∈ part, c ∈ text) → part.head? ≠ some '+' :=
    fun part hpart hfirst => hplus (hpart _ (List.mem_of_head? hfirst))
  constructor
  · intro h
    unfold isFixed at h
    split at h
    · cases h
    · next c places hdrop =>
        have hx : c = 'x' := by
          have hnot := List.head?_dropWhile_not (· ≠ 'x') text
          rw [hdrop] at hnot
          simpa using hnot
        have hsplit := List.takeWhile_append_dropWhile (p := (· ≠ 'x')) (l := text)
        rw [hdrop, hx] at hsplit
        rw [Bool.and_eq_true] at h
        obtain ⟨m, hm, hbits⟩ := (isBits_iff (hhead _ fun d hd => by
          rw [← hsplit]; exact List.mem_append_left _ hd)).mp h.1
        obtain ⟨n, hn, hplaces⟩ := (isPlaces_iff (hhead _ fun d hd => by
          rw [← hsplit]; exact List.mem_append_right _ (List.mem_cons_of_mem _ hd))).mp h.2
        exact ⟨m, n, hm, hn, by rw [← hbits, ← hplaces, hsplit]⟩
  · rintro ⟨m, n, hm, hn, rfl⟩
    have hdigits : ∀ c ∈ Nat.toDigits 10 m, decide (c ≠ 'x') = true := by
      intro c hc
      rw [decide_eq_true_eq]
      rintro rfl
      exact not_mem_toDigits rfl m hc
    have hbits : isBits (Nat.toDigits 10 m) = true :=
      (isBits_iff fun h => not_mem_toDigits rfl m (List.mem_of_head? h)).mpr ⟨m, hm, rfl⟩
    have hplaces : isPlaces (Nat.toDigits 10 n) = true :=
      (isPlaces_iff fun h => not_mem_toDigits rfl n (List.mem_of_head? h)).mpr ⟨n, hn, rfl⟩
    unfold isFixed
    rw [List.dropWhile_append_of_pos hdigits, List.takeWhile_append_of_pos hdigits]
    simp [hbits, hplaces]

end

/-! ## Types -/

/-- How the types with a size are written. -/
inductive Written : TokenKind → List Char → Prop where
  | uint {n : Nat} (h : FitsBits n) : Written .kwUint ("uint".toList ++ Nat.toDigits 10 n)
  | int {n : Nat} (h : FitsBits n) : Written .kwInt ("int".toList ++ Nat.toDigits 10 n)
  | bytes {n : Nat} (h : 1 ≤ n ∧ n ≤ 32) :
      Written .kwBytes ("bytes".toList ++ Nat.toDigits 10 n)
  | ufixed {m n : Nat} (hm : FitsBits m) (hn : n ≤ 80) :
      Written .kwUfixed ("ufixed".toList ++ (Nat.toDigits 10 m ++ 'x' :: Nat.toDigits 10 n))
  | fixed {m n : Nat} (hm : FitsBits m) (hn : n ≤ 80) :
      Written .kwFixed ("fixed".toList ++ (Nat.toDigits 10 m ++ 'x' :: Nat.toDigits 10 n))

/-- No word of a family starts with that of another one. -/
theorem kind?_append {family : String × (List Char → Bool) × TokenKind} (h : family ∈ families)
    {size : List Char} (hsize : family.2.1 size = true) :
    kind? (family.1.toList ++ size) = some family.2.2 := by
  simp only [families, List.mem_cons, List.not_mem_nil, or_false] at h
  rcases h with rfl | rfl | rfl | rfl | rfl
  all_goals
    dsimp only at hsize
    simp [kind?, families, List.isPrefixOf?, hsize]

/-- The family is the one whose word stands in front; the size stands behind it. -/
theorem kind?_eq_some_iff_family {text : List Char} {kind : TokenKind} :
    kind? text = some kind ↔ ∃ family ∈ families, ∃ size, text = family.1.toList ++ size ∧
      family.2.1 size = true ∧ family.2.2 = kind := by
  constructor
  · intro h
    obtain ⟨family, hfamily, hfound⟩ := List.exists_of_findSome?_eq_some h
    obtain ⟨word, isSizeOf, kind'⟩ := family
    refine ⟨_, hfamily, ?_⟩
    dsimp only at hfound ⊢
    cases hsize : word.toList.isPrefixOf? text with
    | none => simp [hsize] at hfound
    | some size =>
        have htext : word.toList ++ size = text := List.isPrefixOf?_eq_some_iff_append_eq.mp hsize
        simp only [hsize, Option.ite_none_right_eq_some, Option.some.injEq] at hfound
        exact ⟨size, htext.symm, hfound⟩
  · rintro ⟨family, hfamily, size, rfl, hsize, rfl⟩
    exact kind?_append hfamily hsize

/-- Without a plus sign, each type with a size is written in one way. -/
theorem kind?_eq_some_iff {text : List Char} (hplus : '+' ∉ text) {kind : TokenKind} :
    kind? text = some kind ↔ Written kind text := by
  rw [kind?_eq_some_iff_family]
  constructor
  · rintro ⟨family, hfamily, size, rfl, hsize, rfl⟩
    have hmem : '+' ∉ size := fun h => hplus (List.mem_append_right _ h)
    have hhead : size.head? ≠ some '+' := fun h => hmem (List.mem_of_head? h)
    simp only [families, List.mem_cons, List.not_mem_nil, or_false] at hfamily
    rcases hfamily with rfl | rfl | rfl | rfl | rfl
    · obtain ⟨n, hn, rfl⟩ := (isBits_iff hhead).mp hsize
      exact .uint hn
    · obtain ⟨n, hn, rfl⟩ := (isBits_iff hhead).mp hsize
      exact .int hn
    · obtain ⟨n, hn, rfl⟩ := (isBytes_iff hhead).mp hsize
      exact .bytes hn
    · obtain ⟨m, n, hm, hn, rfl⟩ := (isFixed_iff hmem).mp hsize
      exact .ufixed hm hn
    · obtain ⟨m, n, hm, hn, rfl⟩ := (isFixed_iff hmem).mp hsize
      exact .fixed hm hn
  · intro h
    have hbehind : ∀ {word size : List Char}, text = word ++ size → '+' ∉ size :=
      fun htext hsize => hplus (htext ▸ List.mem_append_right _ hsize)
    have hhead : ∀ {size : List Char}, '+' ∉ size → size.head? ≠ some '+' :=
      fun hsize h => hsize (List.mem_of_head? h)
    cases h with
    | uint hn =>
        have hsize := (isBits_iff (hhead (hbehind rfl))).mpr ⟨_, hn, rfl⟩
        exact ⟨_, .head _, _, rfl, hsize, rfl⟩
    | int hn =>
        have hsize := (isBits_iff (hhead (hbehind rfl))).mpr ⟨_, hn, rfl⟩
        exact ⟨_, .tail _ (.head _), _, rfl, hsize, rfl⟩
    | bytes hn =>
        have hsize := (isBytes_iff (hhead (hbehind rfl))).mpr ⟨_, hn, rfl⟩
        exact ⟨_, .tail _ (.tail _ (.head _)), _, rfl, hsize, rfl⟩
    | ufixed hm hn =>
        have hsize := (isFixed_iff (hbehind rfl)).mpr ⟨_, _, hm, hn, rfl⟩
        exact ⟨_, .tail _ (.tail _ (.tail _ (.head _))), _, rfl, hsize, rfl⟩
    | fixed hm hn =>
        have hsize := (isFixed_iff (hbehind rfl)).mpr ⟨_, _, hm, hn, rfl⟩
        exact ⟨_, .tail _ (.tail _ (.tail _ (.tail _ (.head _)))), _, rfl, hsize, rfl⟩

end SoliditySource.SizedType
