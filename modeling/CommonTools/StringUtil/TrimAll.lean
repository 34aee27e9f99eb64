import Mathlib.Data.List.Chain
import Mathlib.Data.List.DropRight
import CommonTools.Http.ConfigImport
import CommonTools.Http.Message

/-! # Trimming white space

`trimall` trims one character after the other, the first loop those at the indices 0, 1, and so
on, the second loop those at the indices down from the last one. The indices do not follow the
string that gets shorter at both ends. -/
namespace CommonTools.StringUtil
open CommonTools.Lib CommonTools.Http
open Scanf (isspace)

/-! ## `string_Util.cpp` -/

/-- `src[i]`: the byte behind the string is zero, and there are no others. -/
def charAt (src : Bytes) (i : Nat) : Option UInt8 := if i = src.length then some 0 else src[i]?

/-- `trim`: the characters of `drop` go from the end and then from the front. -/
def trim (s drop : Bytes) : Bytes :=
  (s.rdropWhile (drop.contains ·)).dropWhile (drop.contains ·)

/-- A loop of `trimall`; round `j` looks at `index j`. -/
def trimLoop : Nat → (Nat → Nat) → Bytes → Option Bytes
  | 0, _, src => some src
  | rounds + 1, index, src => do
    let c ← charAt src (index 0)
    if isspace c then trimLoop rounds (fun j => index (j + 1)) (trim src [c]) else some src

/-- `i` is less than `len`, an `int`. -/
def frontRounds (src : Bytes) : Nat := (toInt32 src.length).toNat

/-- `len` starts at `src.length()-1`, an `int`, and is not negative. -/
def backRounds (src : Bytes) : Nat := (toInt32 (src.length - 1) + 1).toNat

def trimall (src : Bytes) : Option Bytes :=
  if toInt32 src.length = 0 then some []
  else do
    let src ← trimLoop (frontRounds src) (fun i => i) src
    trimLoop (backRounds src) (fun j => backRounds src - 1 - j) src

/-! ## What is trimmed -/

/-- Rows of equal characters, given by these: the first one has more than `i` of them, the next
one more than `i + 1`, and so on. -/
inductive LongRows : Nat → List UInt8 → Bytes → Prop
  | nil {i : Nat} : LongRows i [] []
  | row {i k : Nat} {c : UInt8} {cs : List UInt8} {t : Bytes} : i < k → t.head? ≠ some c →
      LongRows (i + 1) cs t → LongRows i (c :: cs) (List.replicate k c ++ t)

/-- `back` without the `c`s at its end for one `c` after the other. -/
def endsOff (cs : List UInt8) (back : Bytes) : Bytes :=
  cs.foldl (fun back c => back.rdropWhile (· == c)) back

/-- What has to stand behind white space in rows of the characters `cs`. Those go from the end
as well, and after them the white space in `core` from the index on that is their number; and in
what is left behind `core` no two neighbours are equal but the first two. -/
def Follows (cs : List UInt8) (core back : Bytes) : Prop :=
  let left := endsOff (cs ++ (core.drop cs.length).takeWhile isspace) back
  left.tail.IsChain (· ≠ ·) ∧
    (cs.length < core.length ∨ core.length + left.length = cs.length)

/-- White space around `core`, in front of it in such rows. -/
structure Framed (cs : List UInt8) (front core back : Bytes) : Prop where
  rows : LongRows 0 cs front
  white : ∀ c ∈ front ++ back, isspace c = true
  inner : strip core = core
  ne_nil : core ≠ []
  fits : ((front ++ core ++ back).length : Int) ≤ INT_MAX

/-- Strings that lose all outer white space and nothing else. -/
inductive Trims : Bytes → Prop
  | clean {s : Bytes} : strip s = s → toInt32 s.length ≠ 0 → Trims s
  | short {s : Bytes} : s.length ≤ 1 → Trims s
  | two {c d : UInt8} {k l : Nat} : isspace c = true → isspace d = true → c ≠ d → 0 < k →
      ((k + 1 + l : Nat) : Int) ≤ INT_MAX →
      Trims (List.replicate k c ++ [d] ++ List.replicate l c)
  | framed {cs : List UInt8} {front core back : Bytes} : Framed cs front core back →
      Follows cs core back → Trims (front ++ core ++ back)

/-! ## Outer white space -/

section
variable {s : Bytes} {c : UInt8}

theorem trim_split (s : Bytes) (c : UInt8) : ∃ b b' : Bytes, (∀ x ∈ b, x = c) ∧
    (∀ x ∈ b', x = c) ∧ s = b ++ trim s [c] ++ b' := by
  refine ⟨(s.rdropWhile ([c].contains ·)).takeWhile ([c].contains ·),
    s.rtakeWhile ([c].contains ·), ?_, ?_, ?_⟩
  · intro x hx
    simpa using List.mem_takeWhile_imp hx
  · intro x hx
    simpa using List.mem_rtakeWhile_imp hx
  · rw [trim, List.takeWhile_append_dropWhile, List.rdropWhile_append_rtakeWhile]

theorem strip_trim (hc : isspace c = true) (s : Bytes) : strip (trim s [c]) = strip s := by
  obtain ⟨b, b', hb, hb', hs⟩ := trim_split s c
  have hwhite : ∀ {t : Bytes}, (∀ x ∈ t, x = c) → ∀ x ∈ t, isspace x = true := by
    intro t ht x hx
    rw [ht x hx]
    exact hc
  conv_rhs => rw [hs, strip_blanks (hwhite hb) (hwhite hb')]

theorem length_strip_le (s : Bytes) : (strip s).length ≤ s.length := by
  obtain ⟨b, b', -, -, hs⟩ := strip_split s
  have hlen := congrArg List.length hs
  rw [List.length_append, List.length_append] at hlen
  omega

/-- A string without outer white space does not begin with any, and it does not end with any. -/
theorem ends_of_strip (h : strip s = s) (hc : isspace c = true) :
    s.head? ≠ some c ∧ s.getLast? ≠ some c := by
  constructor
  · intro hhead
    obtain ⟨t, rfl⟩ := List.head?_eq_some_iff.mp hhead
    have hin : strip ([c] ++ t ++ []) = strip t := strip_blanks (by simpa using hc) (by simp) t
    rw [List.append_nil, List.singleton_append, h] at hin
    have hle := length_strip_le t
    rw [← hin, List.length_cons] at hle
    omega
  · intro hlast
    obtain ⟨t, rfl⟩ := List.getLast?_eq_some_iff.mp hlast
    have hin : strip ([] ++ t ++ [c]) = strip t := strip_blanks (by simp) (by simpa using hc) t
    rw [List.nil_append, h] at hin
    have hle := length_strip_le t
    rw [← hin, List.length_append, List.length_singleton] at hle
    omega

theorem trim_concat (s : Bytes) (c : UInt8) : trim (s ++ [c]) [c] = trim s [c] := by
  rw [trim, trim, List.rdropWhile_concat_pos _ _ _ (by simp)]

theorem dropWhile_of_head (hhead : s.head? ≠ some c) : s.dropWhile ([c].contains ·) = s := by
  cases s with
  | nil => rfl
  | cons d s =>
    refine List.dropWhile_cons_of_neg ?_
    simpa using hhead

/-- Where the character is neither first nor last nothing goes. -/
theorem trim_eq_self (hhead : s.head? ≠ some c) (hlast : s.getLast? ≠ some c) :
    trim s [c] = s := by
  have hback : s.rdropWhile ([c].contains ·) = s := by
    rw [List.rdropWhile_eq_self_iff]
    intro hne hin
    refine hlast ?_
    rw [List.getLast?_eq_some_getLast hne]
    simpa using hin
  rw [trim, hback, dropWhile_of_head hhead]

/-- A character that is first or last goes. -/
theorem length_trim_lt (h : ¬ (s.head? ≠ some c ∧ s.getLast? ≠ some c)) :
    (trim s [c]).length < s.length := by
  have hback := (List.rdropWhile_prefix ([c].contains ·) s).length_le
  have hfront := (List.dropWhile_suffix (l := s.rdropWhile ([c].contains ·))
    ([c].contains ·)).length_le
  rw [← trim] at hfront
  by_contra hle
  have hsame : s.rdropWhile ([c].contains ·) = s :=
    (List.rdropWhile_prefix _ _).eq_of_length (by omega)
  have hlast := List.rdropWhile_eq_self_iff.mp hsame
  have htrim : s.dropWhile ([c].contains ·) = s := by
    refine (List.dropWhile_suffix _).eq_of_length ?_
    rw [trim, hsame] at hfront hle
    omega
  refine h ⟨fun hhead => ?_, fun hin => ?_⟩
  · obtain ⟨t, rfl⟩ := List.head?_eq_some_iff.mp hhead
    rw [List.dropWhile_cons_of_pos (by simp)] at htrim
    have hlen := (List.dropWhile_suffix (l := t) ([c].contains ·)).length_le
    rw [htrim, List.length_cons] at hlen
    omega
  · obtain ⟨t, rfl⟩ := List.getLast?_eq_some_iff.mp hin
    exact hlast (by simp) (by simp)

/-- A string from which `trim` takes one character. -/
theorem eq_of_trim (hlen : (trim s [c]).length + 1 = s.length) :
    s = trim s [c] ++ [c] ∨ s = c :: trim s [c] := by
  obtain ⟨b, b', hb, hb', hs⟩ := trim_split s c
  have hsum := congrArg List.length hs
  rw [List.length_append, List.length_append] at hsum
  by_cases hnil : b = []
  · subst hnil
    have hone : b' = [c] := by
      obtain ⟨x, rfl⟩ := List.length_eq_one_iff.mp (show b'.length = 1 by simp at hsum; omega)
      rw [hb' x (by simp)]
    rw [hone, List.nil_append] at hs
    exact .inl hs
  · have hpos := List.length_pos_iff.mpr hnil
    have hb0 : b' = [] := List.length_eq_zero_iff.mp (by omega)
    have hone : b = [c] := by
      obtain ⟨x, rfl⟩ := List.length_eq_one_iff.mp (show b.length = 1 by omega)
      rw [hb x (by simp)]
    rw [hb0, hone, List.append_nil, List.singleton_append] at hs
    exact .inr hs

end

/-! ## The loop from the last index on -/

/-- The strings that a loop from the last index on leaves without outer white space. Behind such
a string may stand one character more that is not its first or its last one. -/
inductive Peels : Bytes → Prop
  | inner {s : Bytes} : strip s = s → Peels s
  | one {c : UInt8} : isspace c = true → Peels [c]
  | two {s : Bytes} {c : UInt8} : strip s = s → isspace c = true → Peels (s ++ [c, c])
  | both {s : Bytes} {c : UInt8} : strip s = s → isspace c = true → Peels (c :: (s ++ [c]))
  | more {s : Bytes} {c : UInt8} : Peels s → s ≠ [] → isspace c = true → s.head? ≠ some c →
      s.getLast? ≠ some c → Peels (s ++ [c])

section
variable {s : Bytes} {c : UInt8}

/-- With another last character there is nothing to strip. -/
theorem peels_black (hc : isspace c = false) : Peels (s ++ [c]) ↔ strip (s ++ [c]) = s ++ [c] := by
  constructor
  · intro h
    generalize hw : s ++ [c] = w at h
    have hlast : w.getLast? = some c := by rw [← hw, List.getLast?_concat]
    have hend : ∀ (t : Bytes) (d : UInt8), isspace d = true → w ≠ t ++ [d] := by
      intro t d hd heq
      rw [heq, List.getLast?_concat, Option.some_inj] at hlast
      rw [hlast, hc] at hd
      cases hd
    cases h with
    | inner h => exact h
    | @one d hd => exact absurd rfl (hend [] d hd)
    | @two t d _ hd => exact absurd (by simp) (hend (t ++ [d]) d hd)
    | @both t d _ hd => exact absurd rfl (hend (d :: t) d hd)
    | @more t d _ _ hd _ _ => exact absurd rfl (hend t d hd)
  · exact .inner

/-- What stands in front of a last character that is white space. -/
theorem peels_white_iff (hc : isspace c = true) : Peels (s ++ [c]) ↔ s = [] ∨
    (∃ t, strip t = t ∧ (s = t ++ [c] ∨ s = c :: t)) ∨
      (Peels s ∧ s ≠ [] ∧ s.head? ≠ some c ∧ s.getLast? ≠ some c) := by
  constructor
  · intro h
    generalize hw : s ++ [c] = w at h
    cases h with
    | inner h => exact absurd (by rw [← hw, List.getLast?_concat]) (ends_of_strip h hc).2
    | @one d _ =>
      obtain ⟨hs, -⟩ := List.append_inj' (hw.trans (List.nil_append [d]).symm) rfl
      exact .inl hs
    | @two t d ht _ =>
      obtain ⟨hs, hd⟩ := List.append_inj' (hw.trans (List.append_cons t d [d])) rfl
      rw [List.cons.injEq] at hd
      exact .inr (.inl ⟨t, ht, .inl (hd.1 ▸ hs)⟩)
    | @both t d ht _ =>
      obtain ⟨hs, hd⟩ := List.append_inj' (hw.trans (List.cons_append).symm) rfl
      rw [List.cons.injEq] at hd
      exact .inr (.inl ⟨t, ht, .inr (hd.1 ▸ hs)⟩)
    | @more t d h hne _ hhead hlast =>
      obtain ⟨rfl, hd⟩ := List.append_inj' hw rfl
      rw [List.cons.injEq] at hd
      exact .inr (.inr ⟨h, hne, hd.1 ▸ hhead, hd.1 ▸ hlast⟩)
  · intro h
    rcases h with rfl | ⟨t, ht, rfl | rfl⟩ | ⟨h, hne, hhead, hlast⟩
    · exact .one hc
    · rw [List.append_assoc]
      exact .two ht hc
    · exact .both ht hc
    · exact .more h hne hc hhead hlast

/-- A stripped string with the character once at an end is what `trim` leaves of it. -/
theorem trim_once (hc : isspace c = true) (ht : strip s = s) :
    trim (s ++ [c]) [c] = s ∧ trim (c :: s) [c] = s := by
  obtain ⟨hhead, hlast⟩ := ends_of_strip ht hc
  constructor
  · rw [trim_concat, trim_eq_self hhead hlast]
  · rcases List.eq_nil_or_concat' s with rfl | ⟨t, d, rfl⟩
    · simp [trim, List.rdropWhile_singleton]
    · rw [List.getLast?_concat, Ne, Option.some_inj] at hlast
      rw [trim, ← List.cons_append, List.rdropWhile_concat_neg _ _ _ (by simpa using hlast),
        List.cons_append, List.dropWhile_cons_of_pos (by simp), dropWhile_of_head hhead]

/-- Where `trim` takes away more than the last character, the loop ends well when it has taken
two and nothing is left to strip. -/
theorem trimLoop_more {n : Nat} (hn : n + 1 = s.length)
    (hmore : (trim s [c]).length < s.length) :
    trimLoop (n + 1) (fun j => n - j) (trim s [c]) = some (strip (trim s [c])) ↔
      (trim s [c]).length + 1 = s.length ∧ strip (trim s [c]) = trim s [c] := by
  generalize trim s [c] = w at hmore
  rw [trimLoop, Nat.sub_zero]
  by_cases hlen : n = w.length
  · have hat : charAt w n = some 0 := if_pos hlen
    rw [hat]
    simp only [Option.bind_eq_bind, Option.bind_some]
    rw [if_neg (by decide), Option.some_inj, eq_comm]
    exact ⟨fun h => ⟨by omega, h⟩, And.right⟩
  · have hat : charAt w n = none := by
      rw [charAt, if_neg hlen]
      exact List.getElem?_eq_none (by omega)
    rw [hat]
    constructor
    · intro h
      cases h
    · intro h
      exact absurd h.1 (by omega)

/-- **From the last index on a loop takes the outer white space of the strings that peel.** -/
theorem trimLoop_back_iff : trimLoop s.length (fun j => s.length - 1 - j) s = some (strip s) ↔
    Peels s := by
  induction hsize : s.length using Nat.strong_induction_on generalizing s with
  | _ n ih =>
    subst hsize
    rcases List.eq_nil_or_concat' s with rfl | ⟨s, c, rfl⟩
    · exact ⟨fun _ => .inner rfl, fun _ => rfl⟩
    · have hlen : (s ++ [c]).length = s.length + 1 := List.length_append
      have hat : charAt (s ++ [c]) (s.length + 1 - 1 - 0) = some c := by
        rw [charAt, if_neg (by rw [hlen]; omega)]
        simp
      rw [hlen, trimLoop, hat]
      simp only [Option.bind_eq_bind, Option.bind_some]
      cases hc : isspace c with
      | false =>
        rw [peels_black hc, if_neg (by simp), Option.some_inj, eq_comm]
      | true =>
        have hindex : (fun j => s.length + 1 - 1 - (j + 1)) = fun j => s.length - 1 - j := by
          funext j
          omega
        rw [if_pos rfl, hindex, ← strip_trim hc (s ++ [c]), trim_concat, peels_white_iff hc]
        by_cases hnil : s = []
        · subst hnil
          exact ⟨fun _ => .inl rfl, fun _ => rfl⟩
        · by_cases halone : s.head? ≠ some c ∧ s.getLast? ≠ some c
          · obtain ⟨hhead, hlast⟩ := halone
            rw [trim_eq_self hhead hlast, ih s.length (by omega) rfl]
            constructor
            · intro h
              exact .inr (.inr ⟨h, hnil, hhead, hlast⟩)
            · intro h
              rcases h with h | ⟨t, -, rfl | rfl⟩ | ⟨h, -⟩
              · exact absurd h hnil
              · exact absurd (by simp) hlast
              · exact absurd rfl hhead
              · exact h
          · have hmore := length_trim_lt halone
            obtain ⟨n, hn⟩ := Nat.exists_eq_add_of_lt (List.length_pos_iff.mpr hnil)
            rw [Nat.zero_add] at hn
            have hloop := trimLoop_more hn.symm hmore
            have hlast : s.length - 1 = n := by omega
            rw [hlast, hn, hloop]
            constructor
            · intro h
              exact .inr (.inl ⟨trim s [c], h.2, eq_of_trim h.1⟩)
            · intro h
              rcases h with h | ⟨t, ht, rfl | rfl⟩ | ⟨-, -, h⟩
              · exact absurd h hnil
              · rw [(trim_once hc ht).1, List.length_append]
                exact ⟨rfl, ht⟩
              · rw [(trim_once hc ht).2]
                exact ⟨rfl, ht⟩
              · exact absurd h halone

end

/-- Behind a string without outer white space, white space peels when no two neighbours in it
are equal but the first two. -/
theorem peels_append_iff {core back : Bytes} (hin : strip core = core) (hne : core ≠ [])
    (hback : ∀ c ∈ back, isspace c = true) :
    Peels (core ++ back) ↔ back.tail.IsChain (· ≠ ·) := by
  induction back using List.reverseRecOn with
  | nil => simpa using Peels.inner hin
  | append_singleton back c ih =>
    obtain ⟨hback, hc⟩ := List.forall_mem_append.mp hback
    have hc := hc c List.mem_cons_self
    obtain ⟨hhead, hlast⟩ := ends_of_strip hin hc
    have hhead' : (core ++ back).head? ≠ some c := by rwa [List.head?_append_of_ne_nil core hne]
    rw [← List.append_assoc, peels_white_iff hc, ih hback]
    cases back with
    | nil =>
      rw [List.append_nil] at hhead' ⊢
      exact iff_of_true (.inr (.inr ⟨by simp, hne, hhead', hlast⟩)) (by simp)
    | cons d back =>
      have hlast' : (core ++ d :: back).getLast? = (d :: back).getLast? :=
        List.getLast?_append_of_ne_nil core (List.cons_ne_nil d back)
      have hsplit : (d :: back ++ [c]).tail = back ++ [c] := rfl
      rw [hlast', hsplit, List.isChain_append, List.tail_cons]
      constructor
      · intro h
        rcases h with h | ⟨t, ht, h | h⟩ | ⟨h, -, -, hdiff⟩
        · exact absurd h (by simp)
        · -- what stands in front of the last of two equal ones has nothing to strip
          obtain ⟨front, e, hfront⟩ : ∃ front e, d :: back = front ++ [e] :=
            ⟨_, _, (List.dropLast_concat_getLast (List.cons_ne_nil d back)).symm⟩
          rw [hfront, ← List.append_assoc] at h
          obtain ⟨rfl, -⟩ := List.append_inj' h rfl
          have hwhite : ∀ c ∈ front, isspace c = true := fun c hc =>
            hback c (hfront ▸ List.mem_append_left _ hc)
          have hstrip := strip_blanks (b := []) (by simp) hwhite core
          rw [List.nil_append, ht, hin] at hstrip
          have hnil := List.append_right_eq_self.mp hstrip
          rw [hnil, List.nil_append] at hfront
          obtain ⟨-, rfl⟩ := List.cons.inj hfront
          exact ⟨by simp, by simp, by simp⟩
        · exact absurd (by rw [h]; rfl) hhead'
        · refine ⟨h, by simp, fun x hx y hy => ?_⟩
          cases hy
          rintro rfl
          have hb : back ≠ [] := by rintro rfl; cases hx
          rw [List.getLast?_cons_of_ne_nil hb] at hdiff
          exact hdiff hx
      · intro h
        obtain ⟨h, -, hdiff⟩ := h
        by_cases hd : (d :: back).getLast? = some c
        · -- the last of two equal ones is the second
          have hb : back = [] := by
            by_contra hb
            rw [List.getLast?_cons_of_ne_nil hb] at hd
            exact hdiff c hd c rfl rfl
          subst hb
          obtain rfl := Option.some.inj hd
          exact .inr (.inl ⟨core, hin, .inl rfl⟩)
        · exact .inr (.inr ⟨h, by simp, hhead', hd⟩)

/-! ## The loop from the first index on -/

section
variable {core back front t : Bytes} {c : UInt8} {cs : List UInt8} {i k rounds : Nat}

theorem charAt_of_lt {s : Bytes} (h : i < s.length) : charAt s i = s[i]? :=
  if_neg (Nat.ne_of_lt h)

/-- Behind a last element that stays only the end of what follows goes. -/
theorem rdropWhile_append_last {p : UInt8 → Bool} {pre : Bytes}
    (hlast : ∀ x ∈ pre.getLast?, p x = false) (back : Bytes) :
    (pre ++ back).rdropWhile p = pre ++ back.rdropWhile p := by
  induction back using List.reverseRecOn with
  | nil =>
    rw [List.append_nil, List.rdropWhile_nil, List.append_nil, List.rdropWhile_eq_self_iff]
    intro hne
    simpa using hlast _ (List.getLast?_eq_some_getLast hne)
  | append_singleton back x ih =>
    rw [← List.append_assoc]
    cases hx : p x with
    | true => rw [List.rdropWhile_concat_pos _ _ _ hx, List.rdropWhile_concat_pos _ _ _ hx, ih]
    | false =>
      rw [List.rdropWhile_concat_neg _ _ _ (by simp [hx]),
        List.rdropWhile_concat_neg _ _ _ (by simp [hx]), List.append_assoc]

/-- Around a string that neither begins nor ends with the character `trim` takes all of it. -/
theorem trim_around (hne : core ≠ []) (hhead : core.head? ≠ some c) (hlast : core.getLast? ≠ some c)
    (k : Nat) (back : Bytes) :
    trim (List.replicate k c ++ core ++ back) [c] = core ++ back.rdropWhile (· == c) := by
  have hp : ([c].contains ·) = (· == c) := by
    funext x
    rw [List.contains_cons, List.contains_nil, Bool.or_false]
  rw [trim, hp, rdropWhile_append_last, List.append_assoc, List.dropWhile_append_of_pos (by simp)]
  · obtain ⟨x, core, rfl⟩ := List.exists_cons_of_ne_nil hne
    rw [List.cons_append, List.dropWhile_cons_of_neg]
    simpa using hhead
  · intro x hx
    rw [List.getLast?_append_of_ne_nil _ hne] at hx
    rw [beq_eq_false_iff_ne]
    rintro rfl
    exact hlast hx

theorem prefix_endsOff : ∀ (cs : List UInt8) (back : Bytes), endsOff cs back <+: back
  | [], _ => List.prefix_rfl
  | _ :: cs, back => (prefix_endsOff cs _).trans (List.rdropWhile_prefix _ back)

theorem LongRows.length_le (h : LongRows i cs front) : cs.length ≤ front.length := by
  induction h with
  | nil => exact Nat.le_refl 0
  | @row i k c cs t hk _ _ ih =>
    rw [List.length_cons, List.length_append, List.length_replicate]
    omega

/-- **Each round takes one of the rows.** The index has not left the row that is first. -/
theorem trimLoop_rows (hin : strip core = core) (hne : core ≠ []) (h : LongRows i cs front)
    (hwhite : ∀ c ∈ front, isspace c = true) :
    trimLoop (cs.length + rounds) (fun j => i + j) (front ++ core ++ back) =
      trimLoop rounds (fun j => i + cs.length + j) (core ++ endsOff cs back) := by
  induction h generalizing back with
  | nil => simp [endsOff]
  | @row i k c cs t hk ht _ ih =>
    obtain ⟨hc, hwhite⟩ := List.forall_mem_append.mp hwhite
    have hc := hc c (List.mem_replicate.mpr ⟨by omega, rfl⟩)
    obtain ⟨hhead, hlast⟩ := ends_of_strip hin hc
    have hat : charAt (List.replicate k c ++ t ++ core ++ back) (i + 0) = some c := by
      rw [Nat.add_zero, charAt_of_lt (by simp; omega)]
      simp only [List.append_assoc]
      rw [List.getElem?_append_left (by simpa using hk), List.getElem?_replicate, if_pos hk]
    have hhead' : (t ++ core).head? ≠ some c := by
      cases t with
      | nil => exact hhead
      | cons d t => exact ht
    have hlast' : (t ++ core).getLast? ≠ some c := by
      rwa [List.getLast?_append_of_ne_nil _ hne]
    have htrim := trim_around (by simp [hne]) hhead' hlast' k back
    rw [← List.append_assoc] at htrim
    rw [List.length_cons, Nat.add_right_comm, trimLoop, hat, Option.bind_eq_bind, Option.bind_some,
      if_pos hc, htrim]
    have hindex : (fun j => i + (j + 1)) = fun j => i + 1 + j := by
      funext j
      omega
    rw [hindex, ih hwhite]
    congr 1
    funext j
    omega

/-- Inside a string without outer white space the loop goes on up to the next character that is
not white space. -/
theorem trimLoop_inside (hin : strip core = core) : ∀ {rounds i : Nat} {back : Bytes},
    i < core.length → core.length ≤ rounds + i →
      trimLoop rounds (fun j => i + j) (core ++ back) =
        some (core ++ endsOff ((core.drop i).takeWhile isspace) back)
  | 0, i, _, hi, hrounds => by omega
  | rounds + 1, i, back, hi, hrounds => by
    have hdrop := List.drop_eq_getElem_cons hi
    have hat : charAt (core ++ back) (i + 0) = some core[i] := by
      rw [Nat.add_zero, charAt_of_lt (by rw [List.length_append]; omega),
        List.getElem?_append_left hi, List.getElem?_eq_getElem hi]
    have hne : core ≠ [] := by
      rintro rfl
      cases hi
    rw [trimLoop, hat, Option.bind_eq_bind, Option.bind_some, hdrop]
    cases hc : isspace core[i] with
    | false =>
      rw [if_neg (by simp), List.takeWhile_cons_of_neg (by simp [hc])]
      rfl
    | true =>
      obtain ⟨hhead, hlast⟩ := ends_of_strip hin hc
      -- the last character is not white space
      have hnext : i + 1 < core.length := by
        by_contra hend
        refine hlast ?_
        rw [List.getLast?_eq_getElem?, List.getElem?_eq_some_iff]
        exact ⟨by omega, by congr 1; omega⟩
      have htrim := trim_around hne hhead hlast 0 back
      rw [List.replicate_zero, List.nil_append] at htrim
      have hindex : (fun j => i + (j + 1)) = fun j => i + 1 + j := by
        funext j
        omega
      rw [if_pos rfl, htrim, hindex, trimLoop_inside hin hnext (by omega),
        List.takeWhile_cons_of_pos hc]
      rfl

/-- In the white space behind it the loop runs over the end. -/
theorem trimLoop_behind (hin : strip core = core) (hne : core ≠ []) :
    ∀ {rounds i : Nat} {back : Bytes}, (∀ c ∈ back, isspace c = true) → core.length ≤ i →
      i < core.length + back.length → core.length + back.length < rounds + i →
        trimLoop rounds (fun j => i + j) (core ++ back) = none
  | 0, i, _, _, _, hi, hrounds => by omega
  | rounds + 1, i, back, hback, hcore, hi, hrounds => by
    obtain ⟨n, rfl⟩ := Nat.exists_eq_add_of_le hcore
    have hn : n < back.length := by omega
    have hc := hback _ (List.getElem_mem hn)
    have hat : charAt (core ++ back) (core.length + n + 0) = some back[n] := by
      rw [Nat.add_zero, charAt_of_lt (by rw [List.length_append]; omega),
        List.getElem?_append_right (Nat.le_add_right _ _), Nat.add_sub_cancel_left,
        List.getElem?_eq_getElem hn]
    obtain ⟨hhead, hlast⟩ := ends_of_strip hin hc
    have htrim := trim_around hne hhead hlast 0 back
    rw [List.replicate_zero, List.nil_append] at htrim
    have hindex : (fun j => core.length + n + (j + 1)) = fun j => core.length + n + 1 + j := by
      funext j
      omega
    rw [trimLoop, hat, Option.bind_eq_bind, Option.bind_some, if_pos hc, htrim, hindex]
    have hpre := List.rdropWhile_prefix (· == back[n]) back
    have hend := List.rdropWhile_last_not (· == back[n]) back
    generalize back.rdropWhile (· == back[n]) = left at hpre hend
    have hle := hpre.length_le
    by_cases hlen : left.length ≤ n
    · obtain ⟨rounds, rfl⟩ : ∃ rounds', rounds = rounds' + 1 := ⟨rounds - 1, by omega⟩
      have hnone : charAt (core ++ left) (core.length + n + 1 + 0) = none := by
        rw [charAt, if_neg (by rw [List.length_append]; omega)]
        exact List.getElem?_eq_none (by rw [List.length_append]; omega)
      rw [trimLoop, hnone]
      rfl
    · -- what is left does not end with the character at the index
      have hmore : left.length ≠ n + 1 := by
        intro heq
        have hleft : left ≠ [] := List.ne_nil_of_length_pos (by omega)
        refine hend hleft ?_
        rw [List.getLast_eq_getElem, hpre.getElem, beq_iff_eq]
        congr 1
        omega
      exact trimLoop_behind hin hne (fun c hc => hback c (hpre.subset hc)) (by omega) (by omega)
        (by omega)

/-- What the loop leaves of a framed string. -/
theorem Framed.trimLoop_front (h : Framed cs front core back) :
    let left := endsOff (cs ++ (core.drop cs.length).takeWhile isspace) back
    trimLoop (frontRounds (front ++ core ++ back)) (fun i => i) (front ++ core ++ back) =
      if cs.length < core.length ∨ core.length + left.length = cs.length then some (core ++ left)
      else none := by
  intro left
  obtain ⟨hfront, hback⟩ := List.forall_mem_append.mp h.white
  have hle := h.rows.length_le
  have hpos := List.length_pos_iff.mpr h.ne_nil
  have hsize : (front ++ core ++ back).length = front.length + core.length + back.length := by
    rw [List.length_append, List.length_append]
  have hrounds : frontRounds (front ++ core ++ back) =
      cs.length + (front.length + core.length + back.length - cs.length) := by
    rw [frontRounds, toInt32_natCast h.fits, Int.toNat_natCast, hsize]
    omega
  have hrows := @trimLoop_rows core back front cs 0
    (front.length + core.length + back.length - cs.length) h.inner h.ne_nil h.rows hfront
  simp only [Nat.zero_add] at hrows
  rw [hrounds, hrows]
  by_cases hcore : cs.length < core.length
  · rw [if_pos (.inl hcore), trimLoop_inside h.inner hcore (by omega)]
    simp only [left, endsOff, List.foldl_append]
  · have hleft : left = endsOff cs back := by
      simp only [left]
      rw [List.drop_of_length_le (Nat.not_lt.mp hcore), List.takeWhile_nil, List.append_nil]
    have hpre := prefix_endsOff cs back
    rw [← hleft] at hpre ⊢
    have hshort := hpre.length_le
    obtain ⟨rounds, hrest⟩ : ∃ rounds,
        front.length + core.length + back.length - cs.length = rounds + 1 :=
      ⟨front.length + core.length + back.length - cs.length - 1, by omega⟩
    by_cases hend : core.length + left.length = cs.length
    · have hat : charAt (core ++ left) (cs.length + 0) = some 0 :=
        if_pos (by rw [List.length_append, hend, Nat.add_zero])
      rw [if_pos (.inr hend), hrest, trimLoop, hat, Option.bind_eq_bind, Option.bind_some]
      exact if_neg (by decide)
    · rw [if_neg (by omega)]
      by_cases hover : core.length + left.length < cs.length
      · have hat : charAt (core ++ left) (cs.length + 0) = none := by
          rw [charAt, if_neg (by rw [List.length_append]; omega)]
          exact List.getElem?_eq_none (by rw [List.length_append]; omega)
        rw [hrest, trimLoop, hat]
        rfl
      · exact trimLoop_behind h.inner h.ne_nil (fun c hc => hback c (hpre.subset hc)) (by omega)
          (by omega) (by omega)

end

/-! ## `trimall` -/

section
variable {s : Bytes}

/-- The second loop starts at the last index. -/
theorem backRounds_eq (h : s.length ≤ 2 ^ 31) : backRounds s = s.length := by
  rw [backRounds, toInt32, Int.bmod_eq_of_le] <;> omega

theorem Framed.strip_eq {cs : List UInt8} {front core back : Bytes} (h : Framed cs front core back) :
    strip (front ++ core ++ back) = core := by
  obtain ⟨hfront, hback⟩ := List.forall_mem_append.mp h.white
  rw [strip_blanks hfront hback, h.inner]

/-- Of a framed string exactly the outer white space goes if and only if its end fits. -/
theorem Framed.trimall_iff {cs : List UInt8} {front core back : Bytes}
    (h : Framed cs front core back) :
    trimall (front ++ core ++ back) = some (strip (front ++ core ++ back)) ↔
      Follows cs core back := by
  obtain ⟨-, hback⟩ := List.forall_mem_append.mp h.white
  have hpre := prefix_endsOff (cs ++ (core.drop cs.length).takeWhile isspace) back
  have hsome := h.trimLoop_front
  have hpos := List.length_pos_iff.mpr h.ne_nil
  have hsize : ¬ ((front ++ core ++ back).length : Int) = 0 := by
    rw [List.length_append, List.length_append]
    omega
  rw [h.strip_eq, trimall, toInt32_natCast h.fits, if_neg hsize, Follows]
  generalize endsOff (cs ++ (core.drop cs.length).takeWhile isspace) back = left at hpre hsome ⊢
  dsimp only at hsome ⊢
  rw [hsome]
  by_cases hwhere : cs.length < core.length ∨ core.length + left.length = cs.length
  · have hwhite : ∀ c ∈ left, isspace c = true := fun c hc => hback c (hpre.subset hc)
    have hstrip := strip_blanks (b := []) (by simp) hwhite core
    rw [List.nil_append, h.inner] at hstrip
    have hshort : (core ++ left).length ≤ 2 ^ 31 := by
      have hfits := h.fits
      have hle := hpre.length_le
      unfold INT_MAX at hfits
      simp only [List.length_append] at hfits ⊢
      omega
    rw [if_pos hwhere, and_iff_left hwhere, Option.bind_eq_bind, Option.bind_some,
      backRounds_eq hshort, ← peels_append_iff h.inner h.ne_nil hwhite, ← trimLoop_back_iff, hstrip]
  · rw [if_neg hwhere]
    simp [hwhere]

/-- A string without outer white space stays, wherever the loop looks. -/
theorem trimLoop_clean (h : strip s = s) : ∀ {rounds : Nat} {index : Nat → Nat},
    (∀ j < rounds, index j ≤ s.length) → trimLoop rounds index s = some s
  | 0, _, _ => rfl
  | rounds + 1, index, hindex => by
    obtain ⟨c, hat⟩ : ∃ c, charAt s (index 0) = some c := by
      have hle := hindex 0 (Nat.zero_lt_succ _)
      rw [charAt]
      split
      · exact ⟨0, rfl⟩
      · exact ⟨_, List.getElem?_eq_getElem (by omega)⟩
    rw [trimLoop, hat, Option.bind_eq_bind, Option.bind_some]
    split
    · rename_i hc
      obtain ⟨hhead, hlast⟩ := ends_of_strip h hc
      rw [trim_eq_self hhead hlast]
      exact trimLoop_clean h fun j hj => hindex (j + 1) (by omega)
    · rfl

theorem toInt32_toNat_le (n : Nat) : (toInt32 n).toNat ≤ n := by
  by_cases hneg : toInt32 n < 0
  · rw [Int.toNat_of_nonpos (by omega)]
    exact Nat.zero_le n
  · obtain ⟨m, hm⟩ := Int.eq_ofNat_of_zero_le (Int.not_lt.mp hneg)
    rw [hm]
    exact toInt32_natCast_le hm

theorem trimall_clean (h : strip s = s) (hsize : toInt32 s.length ≠ 0) : trimall s = some s := by
  have hfront := toInt32_toNat_le s.length
  have hback : backRounds s ≤ s.length := by
    obtain ⟨n, hn⟩ : ∃ n, s.length = n + 1 := by
      refine Nat.exists_eq_add_one.mpr (Nat.pos_of_ne_zero fun hzero => hsize ?_)
      rw [hzero]
      rfl
    have hle := toInt32_toNat_le n
    rw [backRounds, hn, Int.natCast_add, Nat.cast_one, add_sub_cancel_right]
    omega
  rw [trimall, if_neg hsize, trimLoop_clean h, Option.bind_eq_bind, Option.bind_some,
    trimLoop_clean h]
  · intro j hj
    omega
  · intro j hj
    rw [frontRounds] at hj
    omega

theorem trimall_singleton (c : UInt8) : trimall [c] = some (strip [c]) := by
  have hone : toInt32 ([c] : Bytes).length = 1 :=
    toInt32_natCast (show ((1 : Nat) : Int) ≤ INT_MAX by decide)
  cases hc : isspace c with
  | false =>
    have hstrip : strip [c] = [c] := by simp [strip, hc]
    rw [hstrip, trimall_clean hstrip (by rw [hone]; decide)]
  | true =>
    have hstrip : strip [c] = [] := by simp [strip, hc]
    have hrounds : frontRounds [c] = 1 := by rw [frontRounds, hone]; rfl
    have hat : charAt [c] 0 = some c := rfl
    have htrim : trim [c] [c] = [] := by simp [trim, List.rdropWhile_singleton]
    rw [trimall, hone, if_neg (by decide), hrounds, trimLoop, hat, hstrip]
    simp only [Option.bind_eq_bind, Option.bind_some]
    rw [if_pos hc, htrim, trimLoop, Option.bind_some, backRounds_eq (by simp)]
    rfl

/-- A row of one character around one other. -/
theorem trimall_two {d : UInt8} {k l : Nat} {c : UInt8} (hc : isspace c = true)
    (hd : isspace d = true) (hcd : c ≠ d) (hk : 0 < k)
    (hfits : ((k + 1 + l : Nat) : Int) ≤ INT_MAX) :
    trimall (List.replicate k c ++ [d] ++ List.replicate l c) = some [] := by
  have hsize : (List.replicate k c ++ [d] ++ List.replicate l c).length = k + 1 + l := by
    simp [Nat.add_assoc, Nat.add_comm 1 l]
  have hrounds : frontRounds (List.replicate k c ++ [d] ++ List.replicate l c) =
      k - 1 + l + 1 + 1 := by
    rw [frontRounds, hsize, toInt32_natCast hfits, Int.toNat_natCast]
    omega
  have hat : charAt (List.replicate k c ++ [d] ++ List.replicate l c) 0 = some c := by
    rw [charAt_of_lt (by rw [hsize]; omega), List.append_assoc,
      List.getElem?_append_left (by simpa using hk),
      List.getElem?_replicate, if_pos hk]
  have htrim : trim (List.replicate k c ++ [d] ++ List.replicate l c) [c] = [d] := by
    rw [trim_around (by simp) (by simpa using Ne.symm hcd) (by simpa using Ne.symm hcd)]
    have hgone : (List.replicate l c).rdropWhile (· == c) = [] := by
      rw [List.rdropWhile_eq_nil_iff]
      intro x hx
      rw [List.eq_of_mem_replicate hx]
      exact beq_self_eq_true c
    rw [hgone, List.append_nil]
  have hend : charAt [d] 1 = some 0 := rfl
  have hone : backRounds [d] = 1 := backRounds_eq (by simp)
  have hlast : charAt [d] (1 - 1 - 0) = some d := rfl
  have hnone : trim [d] [d] = [] := by simp [trim, List.rdropWhile_singleton]
  rw [trimall, hsize, toInt32_natCast hfits, if_neg (by omega), hrounds, trimLoop, hat]
  simp only [Option.bind_eq_bind, Option.bind_some]
  rw [if_pos hc, htrim, trimLoop, hend]
  simp only [Option.bind_eq_bind, Option.bind_some]
  rw [if_neg (by decide), Option.bind_some, hone, trimLoop, hlast]
  simp only [Option.bind_eq_bind, Option.bind_some]
  rw [if_pos hd, hnone]
  rfl

/-- **`trimall` takes exactly the outer white space of the strings above**, and of framed strings
of no others. -/
theorem trimall_trims (s : Bytes) : (Trims s → trimall s = some (strip s)) ∧
    ∀ cs front core back, Framed cs front core back → s = front ++ core ++ back →
      (trimall s = some (strip s) ↔ Follows cs core back) := by
  refine ⟨fun h => ?_, fun cs front core back h hs => hs ▸ h.trimall_iff⟩
  cases h with
  | clean h hsize => rw [h, trimall_clean h hsize]
  | short hlen =>
    match s, hlen with
    | [], _ => rfl
    | [c], _ => exact trimall_singleton c
  | @two c d k l hc hd hcd hk hfits =>
    have hwhite : ∀ x ∈ List.replicate k c ++ [d] ++ List.replicate l c, isspace x = true := by
      intro x hx
      simp only [List.mem_append, List.mem_replicate, List.mem_singleton] at hx
      rcases hx with (⟨-, rfl⟩ | rfl) | ⟨-, rfl⟩
      · exact hc
      · exact hd
      · exact hc
    have hstrip := @strip_blanks _ [] hwhite (by simp) []
    rw [List.append_nil, List.append_nil] at hstrip
    rw [hstrip, trimall_two hc hd hcd hk hfits]
    rfl
  | framed h hfollows => exact h.trimall_iff.mpr hfollows

/-- Two blanks in front of `xy`, a blank and a tab behind it. -/
theorem trimall_trims_word : trimall [32, 32, 120, 121, 32, 9] = some [120, 121] := by
  have hframed : Framed [32] [32, 32] [120, 121] [32, 9] :=
    ⟨.row (k := 2) (t := []) (by decide) (by simp) .nil, by decide +kernel, by decide +kernel,
      by decide, by decide⟩
  exact (((trimall_trims _).2 [32] [32, 32] [120, 121] [32, 9] hframed rfl).mpr
    ⟨by decide, .inl (by decide)⟩).trans rfl

/-- A blank and a tab in front: the second round looks behind the tab. -/
theorem trimall_blank_tab : trimall [32, 9, 120] ≠ some (strip [32, 9, 120]) := by
  have hleft : trimall [32, 9, 120] = some [9, 120] := rfl
  have hright : strip [32, 9, 120] = [120] := rfl
  rw [hleft, hright]
  simp

end

end CommonTools.StringUtil
