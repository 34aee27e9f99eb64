import CommonTools.Lib.Scanf

/-! # Texts that match a format

`Matches` says what a text has to look like for `sscanf` to assign every
conversion of a format, and what it assigns then. -/
namespace CommonTools.Lib.Scanf

/-- The text is over or goes on with something else. -/
def Stops (p : UInt8 → Bool) (s : Bytes) : Prop := ∀ c ∈ s.head?, p c = false

/-- What `takeWhile` and `dropWhile` split a text into. -/
theorem span_of_stops {p : UInt8 → Bool} {a t : Bytes} (ha : ∀ c ∈ a, p c = true)
    (ht : Stops p t) : (a ++ t).takeWhile p = a ∧ (a ++ t).dropWhile p = t := by
  have hstop : t.takeWhile p = [] ∧ t.dropWhile p = t := by
    cases t with
    | nil => exact ⟨rfl, rfl⟩
    | cons c t =>
      have hc := ht c rfl
      exact ⟨List.takeWhile_cons_of_neg (by rw [hc]; decide),
        List.dropWhile_cons_of_neg (by rw [hc]; decide)⟩
  rw [List.takeWhile_append_of_pos ha, List.dropWhile_append_of_pos ha, hstop.1, hstop.2,
    List.append_nil]
  exact ⟨rfl, rfl⟩

theorem stops_dropWhile (p : UInt8 → Bool) (s : Bytes) : Stops p (s.dropWhile p) := by
  intro c hc
  have h := List.head?_dropWhile_not p s
  rwa [Option.mem_def.mp hc] at h

theorem mem_takeWhile {p : UInt8 → Bool} {s : Bytes} : ∀ c ∈ s.takeWhile p, p c = true :=
  fun _ hc => List.mem_takeWhile_imp hc

/-! ## Numbers -/

/-- Digits with or without a sign, and their value. -/
inductive NumberText : Bytes → Int → Prop where
  | plain {digits : Bytes} (hne : digits ≠ []) (hdigits : ∀ d ∈ digits, isdigit d = true) :
    NumberText digits (decimal digits)
  | minus {digits : Bytes} (hne : digits ≠ []) (hdigits : ∀ d ∈ digits, isdigit d = true) :
    NumberText (45 :: digits) (-decimal digits)
  | plus {digits : Bytes} (hne : digits ≠ []) (hdigits : ∀ d ∈ digits, isdigit d = true) :
    NumberText (43 :: digits) (decimal digits)

theorem number_signed {c : UInt8} {sgn : Int} {s : Bytes} (hc : sign (c :: s) = (sgn, s)) :
    number (c :: s) = if s.takeWhile isdigit = [] then none
      else some (sgn * decimal (s.takeWhile isdigit), s.dropWhile isdigit) := by
  simp only [number, hc]

/-- `strtol` reads a number up to its end. -/
theorem number_eq_some_iff {s t : Bytes} {v : Int} : number s = some (v, t) ↔
    ∃ text, NumberText text v ∧ s = text ++ t ∧ Stops isdigit t := by
  constructor
  · intro h
    simp only [number] at h
    -- the sign decides which bytes are digits
    have hsplit : ∀ u : Bytes, u = u.takeWhile isdigit ++ u.dropWhile isdigit :=
      fun u => List.takeWhile_append_dropWhile.symm
    cases s with
    | nil => cases h
    | cons c u =>
      rw [sign] at h
      by_cases h45 : c = 45
      · simp only [if_pos h45] at h
        split at h
        · cases h
        · rename_i hne
          obtain ⟨rfl, rfl⟩ := Prod.mk.inj (Option.some.inj h)
          refine ⟨45 :: u.takeWhile isdigit, ?_, ?_, stops_dropWhile _ _⟩
          · rw [Int.neg_one_mul]
            exact .minus hne mem_takeWhile
          · rw [h45, List.cons_append, ← hsplit]
      · by_cases h43 : c = 43
        · simp only [if_neg h45, if_pos h43] at h
          split at h
          · cases h
          · rename_i hne
            obtain ⟨rfl, rfl⟩ := Prod.mk.inj (Option.some.inj h)
            refine ⟨43 :: u.takeWhile isdigit, ?_, ?_, stops_dropWhile _ _⟩
            · rw [Int.one_mul]
              exact .plus hne mem_takeWhile
            · rw [h43, List.cons_append, ← hsplit]
        · simp only [if_neg h45, if_neg h43] at h
          split at h
          · cases h
          · rename_i hne
            obtain ⟨rfl, rfl⟩ := Prod.mk.inj (Option.some.inj h)
            refine ⟨(c :: u).takeWhile isdigit, ?_, hsplit _, stops_dropWhile _ _⟩
            rw [Int.one_mul]
            exact .plain hne mem_takeWhile
  · rintro ⟨text, htext, rfl, ht⟩
    cases htext with
    | plain hne hdigits => exact number_digits hne hdigits ht
    | minus hne hdigits =>
      obtain ⟨htake, hdrop⟩ := span_of_stops hdigits ht
      rw [List.cons_append, number_signed rfl, htake, hdrop, if_neg hne, Int.neg_one_mul]
    | plus hne hdigits =>
      obtain ⟨htake, hdrop⟩ := span_of_stops hdigits ht
      rw [List.cons_append, number_signed rfl, htake, hdrop, if_neg hne, Int.one_mul]

/-! ## Formats -/

/-- How many values a format assigns. -/
def conversions : List Directive → Nat
  | [] => 0
  | .space :: ds => conversions ds
  | .byte _ :: ds => conversions ds
  | .str :: ds => conversions ds + 1
  | .int :: ds => conversions ds + 1
  | .uint :: ds => conversions ds + 1

/-- The text has everything that the format asks for up to its last conversion. -/
inductive Matches : List Directive → List Value → Bytes → Prop where
  | done {ds s} (h : conversions ds = 0) : Matches ds [] s
  | space {ds vs blanks s} (hblanks : ∀ c ∈ blanks, isspace c = true) (hs : Stops isspace s)
    (h : Matches ds vs s) : Matches (.space :: ds) vs (blanks ++ s)
  | byte {ds vs b s} (h : Matches ds vs s) : Matches (.byte b :: ds) vs (b :: s)
  | str {ds vs blanks word s} (hblanks : ∀ c ∈ blanks, isspace c = true) (hne : word ≠ [])
    (hword : ∀ c ∈ word, isspace c = false) (hs : Stops (fun c => !isspace c) s)
    (h : Matches ds vs s) : Matches (.str :: ds) (.str word :: vs) (blanks ++ (word ++ s))
  | int {ds vs blanks text v s} (hblanks : ∀ c ∈ blanks, isspace c = true)
    (htext : NumberText text v) (hs : Stops isdigit s) (h : Matches ds vs s) :
    Matches (.int :: ds) (.int (toInt v) :: vs) (blanks ++ (text ++ s))
  | uint {ds vs blanks text v s} (hblanks : ∀ c ∈ blanks, isspace c = true)
    (htext : NumberText text v) (hs : Stops isdigit s) (h : Matches ds vs s) :
    Matches (.uint :: ds) (.int (toUint v) :: vs) (blanks ++ (text ++ s))

theorem scan_length_le : ∀ (ds : List Directive) (s : Bytes), (scan ds s).length ≤ conversions ds
  | [], _ => Nat.le_refl 0
  | .space :: ds, s => scan_length_le ds _
  | .byte b :: ds, [] => Nat.zero_le _
  | .byte b :: ds, c :: t => by
    rw [scan, conversions]
    split
    · exact scan_length_le ds t
    · exact Nat.zero_le _
  | .str :: ds, s => by
    rw [scan, conversions]
    split
    · exact Nat.zero_le _
    · exact Nat.succ_le_succ (scan_length_le ds _)
  | .int :: ds, s => by
    rw [scan, conversions]
    split
    · exact Nat.zero_le _
    · exact Nat.succ_le_succ (scan_length_le ds _)
  | .uint :: ds, s => by
    rw [scan, conversions]
    split
    · exact Nat.zero_le _
    · exact Nat.succ_le_succ (scan_length_le ds _)

theorem NumberText.stops {text : Bytes} {v : Int} (h : NumberText text v) (s : Bytes) :
    Stops isspace (text ++ s) := by
  have hdigits : ∀ {digits : Bytes}, digits ≠ [] → (∀ d ∈ digits, isdigit d = true) →
      Stops isspace (digits ++ s) := fun {digits} hne hd c hc => by
    cases digits with
    | nil => exact absurd rfl hne
    | cons d digits =>
      obtain rfl := Option.some.inj hc
      exact not_isspace_of_isdigit (hd d List.mem_cons_self)
  cases h with
  | plain hne hd => exact hdigits hne hd
  | minus hne hd =>
    intro c hc
    obtain rfl := Option.some.inj hc
    decide
  | plus hne hd =>
    intro c hc
    obtain rfl := Option.some.inj hc
    decide

/-- The conversion of a number behind blanks. -/
theorem number_dropWhile_iff {s t : Bytes} {v : Int} :
    number (s.dropWhile isspace) = some (v, t) ↔ ∃ blanks text,
      (∀ c ∈ blanks, isspace c = true) ∧ NumberText text v ∧ Stops isdigit t ∧
        s = blanks ++ (text ++ t) := by
  rw [number_eq_some_iff]
  constructor
  · rintro ⟨text, htext, heq, ht⟩
    exact ⟨s.takeWhile isspace, text, mem_takeWhile, htext, ht,
      by rw [← heq, List.takeWhile_append_dropWhile]⟩
  · rintro ⟨blanks, text, hblanks, htext, ht, rfl⟩
    exact ⟨text, htext, (span_of_stops hblanks (htext.stops t)).2, ht⟩

/-- `sscanf` assigns a matching text its values. -/
theorem Matches.scan_eq {ds : List Directive} {vs : List Value} {s : Bytes}
    (h : Matches ds vs s) : scan ds s = vs ∧ vs.length = conversions ds := by
  induction h with
  | @done ds s h =>
    have hle := scan_length_le ds s
    exact ⟨List.length_eq_zero_iff.mp (by omega), h.symm⟩
  | space hblanks hs _ ih =>
    rw [scan, (span_of_stops hblanks hs).2]
    exact ih
  | byte _ ih =>
    rw [scan]
    simp only [if_true]
    exact ih
  | @str ds vs blanks word s hblanks hne hword hs _ ih =>
    have hskip : Stops isspace (word ++ s) := fun c hc => by
      cases word with
      | nil => exact absurd rfl hne
      | cons d word =>
        obtain rfl := Option.some.inj hc
        exact hword d List.mem_cons_self
    obtain ⟨htake, hdrop⟩ := span_of_stops (fun c hc => by rw [hword c hc]; rfl) hs
    simp only [scan, (span_of_stops hblanks hskip).2, htake, hdrop, hne, if_false, conversions,
      List.length_cons, ih, and_self]
  | int hblanks htext hs _ ih =>
    have hnum := number_dropWhile_iff.mpr ⟨_, _, hblanks, htext, hs, rfl⟩
    simp only [scan, hnum, conversions, List.length_cons, ih, and_self]
  | uint hblanks htext hs _ ih =>
    have hnum := number_dropWhile_iff.mpr ⟨_, _, hblanks, htext, hs, rfl⟩
    simp only [scan, hnum, conversions, List.length_cons, ih, and_self]

/-- What `sscanf` assigns in full it has found in the text. -/
theorem matches_scan : ∀ {ds : List Directive} {s : Bytes},
    (scan ds s).length = conversions ds → Matches ds (scan ds s) s
  | [], _, _ => .done rfl
  | .space :: ds, s, h => by
    have hrest := @matches_scan ds (s.dropWhile isspace) h
    have hspace := Matches.space (@mem_takeWhile isspace s) (stops_dropWhile isspace s) hrest
    rwa [List.takeWhile_append_dropWhile] at hspace
  | .byte b :: ds, [], h => .done h.symm
  | .byte b :: ds, c :: t, h => by
    rw [scan] at h ⊢
    by_cases hc : c = b
    · rw [if_pos hc] at h ⊢
      subst hc
      exact .byte (matches_scan h)
    · rw [if_neg hc] at h ⊢
      exact .done h.symm
  | .str :: ds, s, h => by
    rw [scan] at h ⊢
    by_cases hne : (s.dropWhile isspace).takeWhile (fun c => !isspace c) = []
    · rw [if_pos hne] at h
      cases h
    · rw [if_neg hne] at h ⊢
      have hrest := matches_scan (Nat.succ.inj h)
      have hstr := Matches.str (@mem_takeWhile isspace s) hne
        (fun c hc => by simpa using mem_takeWhile c hc) (stops_dropWhile _ _) hrest
      rwa [List.takeWhile_append_dropWhile, List.takeWhile_append_dropWhile] at hstr
  | .int :: ds, s, h => by
    rw [scan] at h ⊢
    cases hnum : number (s.dropWhile isspace) with
    | none =>
      rw [hnum] at h
      cases h
    | some r =>
      obtain ⟨blanks, text, hblanks, htext, ht, hs⟩ := number_dropWhile_iff.mp hnum
      rw [hnum] at h
      have hint := Matches.int hblanks htext ht (matches_scan (Nat.succ.inj h))
      rwa [← hs] at hint
  | .uint :: ds, s, h => by
    rw [scan] at h ⊢
    cases hnum : number (s.dropWhile isspace) with
    | none =>
      rw [hnum] at h
      cases h
    | some r =>
      obtain ⟨blanks, text, hblanks, htext, ht, hs⟩ := number_dropWhile_iff.mp hnum
      rw [hnum] at h
      have hint := Matches.uint hblanks htext ht (matches_scan (Nat.succ.inj h))
      rwa [← hs] at hint

/-- **What a format reads.** `sscanf` assigns all conversions exactly in the
texts that match the format. -/
theorem matches_iff {ds : List Directive} {vs : List Value} {s : Bytes} :
    Matches ds vs s ↔ scan ds s = vs ∧ vs.length = conversions ds := by
  refine ⟨Matches.scan_eq, ?_⟩
  rintro ⟨rfl, hlen⟩
  exact matches_scan hlen

theorem conversions_bytes (ds : List Directive) :
    ∀ text : Bytes, conversions (text.map .byte ++ ds) = conversions ds
  | [] => rfl
  | _ :: text => conversions_bytes ds text

end CommonTools.Lib.Scanf
