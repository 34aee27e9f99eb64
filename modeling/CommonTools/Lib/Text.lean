import CommonTools.Lib.Scanf

/-! # Printed text

`ascii` is the bytes of a string literal, `decimalText` what `%u` prints. `atoi`
reads such a number back. -/
namespace CommonTools.Lib

def ascii (s : String) : Bytes := s.toUTF8.data.toList

def decimalText (n : Nat) : Bytes := (Nat.toDigits 10 n).map fun c => UInt8.ofNat c.toNat

/-- `atoi`: as `strtol`, cut to an `int`. -/
def atoi (s : Bytes) : Int :=
  match Scanf.number (s.dropWhile Scanf.isspace) with
  | none => 0
  | some (v, _) => Scanf.toInt v

theorem decimalText_ne_nil (n : Nat) : decimalText n ≠ [] := by
  rw [decimalText, ne_eq, List.map_eq_nil_iff]
  exact Nat.toDigits_ne_nil

theorem toNat_digit {c : Char} (h : c.isDigit = true) :
    (UInt8.ofNat c.toNat).toNat = c.toNat ∧ 48 ≤ c.toNat ∧ c.toNat ≤ 57 := by
  have hb : 48 ≤ c.toNat ∧ c.toNat ≤ 57 := by
    rw [Char.isDigit, Bool.and_eq_true, decide_eq_true_iff, decide_eq_true_iff] at h
    exact ⟨UInt32.le_iff_toNat_le.mp h.1, UInt32.le_iff_toNat_le.mp h.2⟩
  refine ⟨?_, hb⟩
  rw [UInt8.toNat_ofNat', Nat.mod_eq_of_lt]
  omega

theorem isdigit_decimalText (n : Nat) : ∀ d ∈ decimalText n, Scanf.isdigit d = true := by
  intro d hd
  obtain ⟨c, hc, rfl⟩ := List.mem_map.mp hd
  obtain ⟨hval, h48, h57⟩ := toNat_digit (Nat.isDigit_of_mem_toDigits (by decide) (by decide) hc)
  rw [Scanf.isdigit, Bool.and_eq_true, decide_eq_true_iff, decide_eq_true_iff,
    UInt8.le_iff_toNat_le, UInt8.le_iff_toNat_le, hval]
  exact ⟨h48, h57⟩

theorem nulFree_decimalText (n : Nat) : NulFree (decimalText n) := by
  rintro d hd rfl
  exact absurd (isdigit_decimalText n 0 hd) (by decide)

theorem decimalText_length_le {n k : Nat} (hk : 0 < k) (h : n < 10 ^ k) :
    (decimalText n).length ≤ k := by
  rw [decimalText, List.length_map]
  exact (Nat.length_toDigits_le_iff (by decide) hk).mpr h

theorem decimal_decimalText (n : Nat) : Scanf.decimal (decimalText n) = n := by
  have hfold : ∀ (l : List Char) (v : Nat), (∀ c ∈ l, c.isDigit = true) →
      (l.map fun c => UInt8.ofNat c.toNat).foldl (fun v d => 10 * v + (d.toNat - 48)) v =
        Nat.ofDigitChars 10 l v := by
    intro l
    induction l with
    | nil => intro v _; rfl
    | cons c l ih =>
      intro v hl
      rw [List.map_cons, List.foldl_cons, ih _ fun x hx => hl x (List.mem_cons_of_mem c hx),
        Nat.ofDigitChars_cons, (toNat_digit (hl c List.mem_cons_self)).1]
      rfl
  rw [Scanf.decimal, decimalText,
    hfold _ _ fun c hc => Nat.isDigit_of_mem_toDigits (by decide) (by decide) hc]
  exact Nat.ofDigitChars_ten_toDigits

theorem atoi_digits {digits rest : Bytes} (hne : digits ≠ [])
    (hdigits : ∀ d ∈ digits, Scanf.isdigit d = true)
    (hrest : ∀ d ∈ rest.head?, Scanf.isdigit d = false) :
    atoi (digits ++ rest) = Scanf.toInt (Scanf.decimal digits) := by
  have hskip : (digits ++ rest).dropWhile Scanf.isspace = digits ++ rest := by
    cases digits with
    | nil => exact absurd rfl hne
    | cons d l =>
      have hdig := hdigits d List.mem_cons_self
      exact List.dropWhile_cons_of_neg (by rw [Scanf.not_isspace_of_isdigit hdig]; decide)
  rw [atoi, hskip, Scanf.number_digits hne hdigits hrest]

theorem atoi_decimalText (n : Nat) : atoi (decimalText n) = Scanf.toInt n := by
  have hnum := @atoi_digits (decimalText n) [] (decimalText_ne_nil n) (isdigit_decimalText n)
    (fun d (hd : d ∈ ([] : Bytes).head?) => nomatch hd)
  rwa [List.append_nil, decimal_decimalText] at hnum

end CommonTools.Lib
