import CommonTools.Lib.CString

/-! # `sscanf`

Directives are matched one after the other; the first that fails ends the scan,
and the conversions before it have been assigned. Numbers are read as `strtol`
reads them and stored in 32 bits. -/
namespace CommonTools.Lib.Scanf

/-- `isspace` in the C locale. -/
def isspace (c : UInt8) : Bool := c == 32 || (9 ≤ c && c ≤ 13)

def isdigit (c : UInt8) : Bool := 48 ≤ c && c ≤ 57

inductive Directive where
  | space
  | byte (b : UInt8)
  | str
  | int
  | uint

inductive Value where
  | str (s : Bytes)
  | int (v : Int)
deriving DecidableEq

/-- The number that decimal digits stand for. -/
def decimal (digits : Bytes) : Nat := digits.foldl (fun v d => 10 * v + (d.toNat - 48)) 0

def sign : Bytes → Int × Bytes
  | [] => (1, [])
  | c :: t => if c = 45 then (-1, t) else if c = 43 then (1, t) else (1, c :: t)

/-- A sign and digits, and what follows them. -/
def number (s : Bytes) : Option (Int × Bytes) :=
  let (sgn, s) := sign s
  let digits := s.takeWhile isdigit
  if digits = [] then none else some (sgn * decimal digits, s.dropWhile isdigit)

def toInt (v : Int) : Int := (max (-2 ^ 63) (min v (2 ^ 63 - 1))).bmod (2 ^ 32)

/-- An `unsigned long`, cut to an `unsigned int`. -/
def toUint (v : Int) : Int := if v.natAbs < 2 ^ 64 then v.emod (2 ^ 32) else 2 ^ 32 - 1

def scan : List Directive → Bytes → List Value
  | [], _ => []
  | .space :: ds, s => scan ds (s.dropWhile isspace)
  | .byte b :: ds, s =>
    match s with
    | [] => []
    | c :: t => if c = b then scan ds t else []
  | .str :: ds, s =>
    let s := s.dropWhile isspace
    let word := s.takeWhile fun c => !isspace c
    if word = [] then [] else .str word :: scan ds (s.dropWhile fun c => !isspace c)
  | .int :: ds, s =>
    match number (s.dropWhile isspace) with
    | none => []
    | some (v, t) => .int (toInt v) :: scan ds t
  | .uint :: ds, s =>
    match number (s.dropWhile isspace) with
    | none => []
    | some (v, t) => .int (toUint v) :: scan ds t

/-- A number below `2 ^ 32` is still there in the bits of the `int`. -/
theorem toInt_emod {n : Nat} (h : n < 2 ^ 32) : (toInt n).emod (2 ^ 32) = n := by
  have hclamp : max (-2 ^ 63) (min (n : Int) (2 ^ 63 - 1)) = n := by omega
  rw [toInt, hclamp]
  refine Int.bmod_emod.trans (Int.emod_eq_of_lt (Int.natCast_nonneg n) ?_)
  omega

theorem toInt_natCast {n : Nat} (h : n < 2 ^ 31) : toInt n = n := by
  have hclamp : max (-2 ^ 63) (min (n : Int) (2 ^ 63 - 1)) = n := by omega
  rw [toInt, hclamp]
  exact Int.bmod_eq_of_le (by omega) (by omega)

theorem toInt_bounds (v : Int) : -2 ^ 31 ≤ toInt v ∧ toInt v < 2 ^ 31 := by
  have hlo := @Int.le_bmod (max (-2 ^ 63) (min v (2 ^ 63 - 1))) (2 ^ 32) (by decide)
  have hhi := @Int.bmod_lt (max (-2 ^ 63) (min v (2 ^ 63 - 1))) (2 ^ 32) (by decide)
  unfold toInt
  omega

/-- The bits of an `int` are not read as more than the number was. -/
theorem toInt_le (n : Nat) : toInt n ≤ n := by
  have hbmod : ∀ x : Int, 0 ≤ x → x.bmod (2 ^ 32) ≤ x := fun x hx => by
    rw [Int.bmod_eq_emod]
    split <;> omega
  have hclamp := hbmod (max (-2 ^ 63) (min (n : Int) (2 ^ 63 - 1))) (by omega)
  rw [toInt]
  omega

theorem scan_bytes (ds : List Directive) (s : Bytes) :
    ∀ text : Bytes, scan (text.map .byte ++ ds) (text ++ s) = scan ds s
  | [] => rfl
  | b :: text => by
    rw [List.map_cons, List.cons_append, List.cons_append, scan]
    simp only [if_true]
    exact scan_bytes ds s text

/-- Digits without a sign in front of them. -/
theorem number_digits {digits rest : Bytes} (hne : digits ≠ [])
    (hdigits : ∀ d ∈ digits, isdigit d = true) (hrest : ∀ d ∈ rest.head?, isdigit d = false) :
    number (digits ++ rest) = some ((decimal digits : Int), rest) := by
  have hstop : rest.takeWhile isdigit = [] ∧ rest.dropWhile isdigit = rest := by
    cases rest with
    | nil => exact ⟨rfl, rfl⟩
    | cons r rest =>
      have hr := hrest r rfl
      exact ⟨List.takeWhile_cons_of_neg (by rw [hr]; decide),
        List.dropWhile_cons_of_neg (by rw [hr]; decide)⟩
  have htake : (digits ++ rest).takeWhile isdigit = digits := by
    rw [List.takeWhile_append_of_pos hdigits, hstop.1, List.append_nil]
  have hdrop : (digits ++ rest).dropWhile isdigit = rest := by
    rw [List.dropWhile_append_of_pos hdigits, hstop.2]
  have hsign : sign (digits ++ rest) = (1, digits ++ rest) := by
    cases digits with
    | nil => exact absurd rfl hne
    | cons d digits =>
      have hd := hdigits d List.mem_cons_self
      have h45 : d ≠ 45 := by
        intro he
        rw [he] at hd
        exact absurd hd (by decide)
      have h43 : d ≠ 43 := by
        intro he
        rw [he] at hd
        exact absurd hd (by decide)
      rw [List.cons_append, sign, if_neg h45, if_neg h43]
  simp only [number, hsign, htake, hdrop, hne, if_false, Int.one_mul]

theorem not_isspace_of_isdigit {d : UInt8} (h : isdigit d = true) :
    isspace d = false := by
  rw [← Bool.not_eq_true]
  intro hs
  unfold isdigit at h
  unfold isspace at hs
  simp only [Bool.and_eq_true, Bool.or_eq_true, decide_eq_true_eq, beq_iff_eq,
    UInt8.le_iff_toNat_le] at h hs
  have h48 : 48 ≤ d.toNat := h.1
  obtain h32 | ⟨-, h13⟩ := hs
  · rw [h32] at h48
    exact absurd h48 (by decide)
  · have h13' : d.toNat ≤ 13 := h13
    omega

/-- Blanks and digits are read as an `int`. -/
theorem scan_int {blanks digits rest : Bytes} (hblanks : ∀ c ∈ blanks, isspace c = true)
    (hne : digits ≠ []) (hdigits : ∀ d ∈ digits, isdigit d = true)
    (hrest : ∀ d ∈ rest.head?, isdigit d = false) :
    scan [.int] (blanks ++ (digits ++ rest)) = [.int (toInt (decimal digits))] := by
  have hskip : (blanks ++ (digits ++ rest)).dropWhile isspace = digits ++ rest := by
    rw [List.dropWhile_append_of_pos hblanks]
    cases digits with
    | nil => exact absurd rfl hne
    | cons d digits =>
      have hd := hdigits d List.mem_cons_self
      rw [List.cons_append, List.dropWhile_cons_of_neg (by rw [not_isspace_of_isdigit hd]; decide)]
  rw [scan, hskip, number_digits hne hdigits hrest]
  rfl

end CommonTools.Lib.Scanf
