import CommonTools.Http.ConfigMapSound

/-! # Reading a configuration file

A line in brackets enters a section, and a line of two quoted texts sets a
value; other lines are passed over. The strings that are handed on end at their
first zero. -/
namespace CommonTools.Http
open CommonTools.Lib

/-! ## The lines of a file -/

/-- The text from `head` up to a quote, and what stands behind it. -/
def quoted (text : Bytes) : Option (Bytes × Bytes) :=
  if 34 ∈ text then some (text.takeWhile (· ≠ 34), (text.dropWhile (· ≠ 34)).tail) else none

/-- One round of the loop of `import`: brackets are 91 and 93, the quote is 34
and `=` is 61. -/
def importLine (c : ConfigMap) (line : Bytes) : ConfigMap :=
  match strip line with
  | [] => c
  | head :: rest =>
    if head = 91 then
      if 93 ∈ rest ∧ rest.takeWhile (· ≠ 93) ≠ [] then
        c.setSection (cstr (strip (rest.takeWhile (· ≠ 93))))
      else c
    else if head = 34 then
      match quoted rest with
      | none => c
      | some (key, line) =>
        if key = [] then c
        else
          match strip line with
          | [] => c
          | head :: line =>
            if head = 61 then
              match strip line with
              | [] => c
              | head :: rest =>
                if head = 34 then
                  match quoted rest with
                  | none => c
                  | some (value, _) => c.setValue (cstr key) (cstr value)
                else c
            else c
    else c

/-- `import`: the return value and the map; `none` is a file that cannot be
opened. -/
def importFile (c : ConfigMap) : Option Bytes → Int × ConfigMap
  | none => (-1, c)
  | some file => (0, (file.splitOn 10).foldl importLine c)

/-! ## White space -/

def Blank (s : Bytes) : Prop := ∀ c ∈ s, Scanf.isspace c = true ∧ c ≠ 10

theorem blank_nil : Blank [] := fun _ h => absurd h List.not_mem_nil

theorem Blank.not_mem {s : Bytes} (h : Blank s) {c : UInt8} (hc : Scanf.isspace c = false) :
    c ∉ s := fun hmem => by
  rw [(h c hmem).1] at hc
  cases hc

theorem Blank.not_newline {s : Bytes} (h : Blank s) : 10 ∉ s := fun hmem => (h 10 hmem).2 rfl

theorem Blank.isspace {s : Bytes} (h : Blank s) : ∀ c ∈ s, Scanf.isspace c = true :=
  fun c hc => (h c hc).1

theorem strip_blanks {b b' : Bytes} (hb : ∀ c ∈ b, Scanf.isspace c = true)
    (hb' : ∀ c ∈ b', Scanf.isspace c = true) (s : Bytes) : strip (b ++ s ++ b') = strip s := by
  rw [strip, List.append_assoc, List.dropWhile_append_of_pos hb]
  by_cases hs : s.dropWhile Scanf.isspace = []
  · have hall : ∀ c ∈ s ++ b', Scanf.isspace c = true := fun c hc =>
      (List.mem_append.mp hc).elim (List.dropWhile_eq_nil_iff.mp hs c) (hb' c)
    rw [strip, hs, List.dropWhile_eq_nil_iff.mpr hall]
  · rw [strip, List.dropWhile_append, if_neg (by simpa using hs), List.reverse_append,
      List.dropWhile_append_of_pos fun c hc => hb' c (List.mem_reverse.mp hc)]

/-- Text between two characters that are not white space stays. -/
theorem strip_ends {first last : UInt8} (hf : Scanf.isspace first = false)
    (hl : Scanf.isspace last = false) (s : Bytes) :
    strip (first :: (s ++ [last])) = first :: (s ++ [last]) := by
  have hfront : (first :: (s ++ [last])).dropWhile Scanf.isspace = first :: (s ++ [last]) :=
    List.dropWhile_cons_of_neg (by simp [hf])
  have hback : (first :: (s ++ [last])).reverse = last :: (first :: s).reverse := by simp
  rw [strip, hfront, hback, List.dropWhile_cons_of_neg (by simp [hl]), ← hback,
    List.reverse_reverse]

theorem strip_within {b b' : Bytes} {first last : UInt8} (hb : Blank b) (hb' : Blank b')
    (hf : Scanf.isspace first = false) (hl : Scanf.isspace last = false) (s : Bytes) :
    strip (b ++ first :: (s ++ [last]) ++ b') = first :: (s ++ [last]) := by
  rw [strip_blanks hb.isspace hb'.isspace, strip_ends hf hl]

/-- White space in front of such a text goes. -/
theorem strip_behind {b : Bytes} {first last : UInt8} (hb : Blank b)
    (hf : Scanf.isspace first = false) (hl : Scanf.isspace last = false) (s : Bytes) :
    strip (b ++ first :: (s ++ [last])) = first :: (s ++ [last]) := by
  have hwithin := strip_within hb blank_nil hf hl s
  rwa [List.append_nil] at hwithin

theorem strip_split (s : Bytes) : ∃ b b', (∀ c ∈ b, Scanf.isspace c = true) ∧
    (∀ c ∈ b', Scanf.isspace c = true) ∧ s = b ++ strip s ++ b' := by
  refine ⟨s.takeWhile Scanf.isspace,
    (((s.dropWhile Scanf.isspace).reverse).takeWhile Scanf.isspace).reverse,
    fun c hc => List.mem_takeWhile_imp hc,
    fun c hc => List.mem_takeWhile_imp (List.mem_reverse.mp hc), ?_⟩
  rw [List.append_assoc, strip, ← List.reverse_append, List.takeWhile_append_dropWhile,
    List.reverse_reverse, List.takeWhile_append_dropWhile]

theorem strip_strip (s : Bytes) : strip (strip s) = strip s := by
  obtain ⟨b, b', hb, hb', hs⟩ := strip_split s
  have hinner := strip_blanks hb hb' (strip s)
  rw [← hs] at hinner
  exact hinner.symm

/-- White space does not decide where a text ends. -/
theorem strip_cstr_strip (s : Bytes) : strip (cstr (strip s)) = strip (cstr s) := by
  obtain ⟨b, b', hb, hb', hs⟩ := strip_split s
  have hblank : ∀ {t : Bytes}, (∀ c ∈ t, Scanf.isspace c = true) → NulFree t := fun ht c hc => by
    rintro rfl
    exact absurd (ht 0 hc) (by decide)
  by_cases h0 : (0 : UInt8) ∈ strip s
  · have hcut : cstr s = b ++ cstr (strip s) ++ [] := by
      conv_lhs => rw [hs]
      rw [List.append_nil, List.append_assoc, cstr_append_of_nulFree (hblank hb),
        cstr_append_of_mem h0]
    rw [hcut, strip_blanks hb (by simp)]
  · have hfree : NulFree (strip s) := fun c hc h => h0 (h ▸ hc)
    have hall : NulFree s := by
      rw [hs, nulFree_append, nulFree_append]
      exact ⟨⟨hblank hb, hfree⟩, hblank hb'⟩
    rw [cstr_eq_self hfree, cstr_eq_self hall, strip_strip]

/-! ## A configuration and its renderings -/

/-- The name of a section, with or without white space around it. -/
structure SectionName where
  name : Bytes
  nonempty : strip name ≠ []
  plain : ∀ c ∈ name, c ≠ 93 ∧ c ≠ 47 ∧ c ≠ 92 ∧ c ≠ 10

structure ConfigPair where
  key : Bytes
  value : Bytes
  nonempty : key ≠ []
  key_plain : ∀ c ∈ key, c ≠ 34 ∧ c ≠ 10 ∧ c ≠ 0
  value_plain : ∀ c ∈ value, c ≠ 34 ∧ c ≠ 10 ∧ c ≠ 0

abbrev Settings := List (SectionName × List ConfigPair)

inductive Entry where
  | enter (name : SectionName)
  | set (pair : ConfigPair)

/-- The entries of a configuration in their order. -/
def entriesOf (config : Settings) : List Entry :=
  config.flatMap fun s => .enter s.1 :: s.2.map .set

inductive LineOf : Entry → Bytes → Prop
  | enter (name : SectionName) {b₀ b₁ b₂ b₃ : Bytes} : Blank b₀ → Blank b₁ → Blank b₂ →
      Blank b₃ → LineOf (.enter name) (b₀ ++ [91] ++ b₁ ++ name.name ++ b₂ ++ [93] ++ b₃)
  | set (pair : ConfigPair) {b₀ b₁ b₂ b₃ : Bytes} : Blank b₀ → Blank b₁ → Blank b₂ → Blank b₃ →
      LineOf (.set pair) (b₀ ++ [34] ++ pair.key ++ [34] ++ b₁ ++ [61] ++ b₂ ++ [34] ++
        pair.value ++ [34] ++ b₃)

/-- A line that says nothing: blank, or with another first character. -/
def OtherLine (line : Bytes) : Prop := 10 ∉ line ∧ ∀ c ∈ (strip line).head?, c ≠ 91 ∧ c ≠ 34

/-- The lines say the entries, with other lines between them. -/
inductive Rendering : List Entry → List Bytes → Prop
  | nil : Rendering [] []
  | other {line : Bytes} {entries : List Entry} {lines : List Bytes} : OtherLine line →
      Rendering entries lines → Rendering entries (line :: lines)
  | entry {e : Entry} {line : Bytes} {entries : List Entry} {lines : List Bytes} : LineOf e line →
      Rendering entries lines → Rendering (e :: entries) (line :: lines)

def Entry.call : Entry → ConfigCall
  | enter name => .setSection (cstr (strip name.name))
  | set pair => .setValue pair.key pair.value

theorem quoted_append {text : Bytes} (h : ∀ c ∈ text, c ≠ 34) (rest : Bytes) :
    quoted (text ++ [34] ++ rest) = some (text, rest) := by
  have hall : ∀ c ∈ text, decide (c ≠ 34) = true := fun c hc => decide_eq_true (h c hc)
  rw [quoted, if_pos (by simp), List.append_assoc, List.takeWhile_append_of_pos hall,
    List.dropWhile_append_of_pos hall]
  simp

theorem importLine_other {line : Bytes} (h : OtherLine line) (c : ConfigMap) :
    importLine c line = c := by
  rw [importLine]
  cases hs : strip line with
  | nil => rfl
  | cons head rest =>
    obtain ⟨hbracket, hquote⟩ := h.2 head (by rw [hs]; rfl)
    dsimp only
    rw [if_neg hbracket, if_neg hquote]

theorem importLine_enter (name : SectionName) {b₀ b₁ b₂ b₃ : Bytes} (h₀ : Blank b₀)
    (h₁ : Blank b₁) (h₂ : Blank b₂) (h₃ : Blank b₃) (c : ConfigMap) :
    importLine c (b₀ ++ [91] ++ b₁ ++ name.name ++ b₂ ++ [93] ++ b₃) =
      c.setSection (cstr (strip name.name)) := by
  have hline : b₀ ++ [91] ++ b₁ ++ name.name ++ b₂ ++ [93] ++ b₃ =
      b₀ ++ 91 :: ((b₁ ++ name.name ++ b₂) ++ [93]) ++ b₃ := by simp
  have hplain : ∀ x ∈ b₁ ++ name.name ++ b₂, decide (x ≠ 93) = true := fun x hx => by
    rw [decide_eq_true_iff]
    rintro rfl
    rcases List.mem_append.mp hx with hx | hx
    · rcases List.mem_append.mp hx with hx | hx
      · exact h₁.not_mem (by decide) hx
      · exact (name.plain _ hx).1 rfl
    · exact h₂.not_mem (by decide) hx
  have htake : ((b₁ ++ name.name ++ b₂) ++ [93]).takeWhile (· ≠ 93) = b₁ ++ name.name ++ b₂ := by
    rw [List.takeWhile_append_of_pos hplain]
    simp
  have hne : b₁ ++ name.name ++ b₂ ≠ [] := fun hnil => name.nonempty (by
    rw [(List.append_eq_nil_iff.mp (List.append_eq_nil_iff.mp hnil).1).2]
    rfl)
  rw [importLine, hline, strip_within h₀ h₃ (by decide) (by decide)]
  dsimp only
  rw [if_pos rfl, htake, if_pos ⟨by simp, hne⟩, strip_blanks h₁.isspace h₂.isspace]

theorem importLine_set (pair : ConfigPair) {b₀ b₁ b₂ b₃ : Bytes} (h₀ : Blank b₀)
    (h₁ : Blank b₁) (h₂ : Blank b₂) (h₃ : Blank b₃) (c : ConfigMap) :
    importLine c (b₀ ++ [34] ++ pair.key ++ [34] ++ b₁ ++ [61] ++ b₂ ++ [34] ++ pair.value ++
      [34] ++ b₃) = c.setValue pair.key pair.value := by
  have hline : b₀ ++ [34] ++ pair.key ++ [34] ++ b₁ ++ [61] ++ b₂ ++ [34] ++ pair.value ++ [34] ++
      b₃ = b₀ ++ 34 :: ((pair.key ++ [34] ++ (b₁ ++ 61 :: (b₂ ++ 34 :: pair.value))) ++ [34]) ++
        b₃ := by simp
  have hkey := quoted_append (fun x hx => (pair.key_plain x hx).1)
    (b₁ ++ 61 :: ((b₂ ++ 34 :: pair.value) ++ [34]))
  have hequals : strip (b₁ ++ 61 :: ((b₂ ++ 34 :: pair.value) ++ [34])) =
      61 :: ((b₂ ++ 34 :: pair.value) ++ [34]) := strip_behind h₁ (by decide) (by decide) _
  have hvalue : strip ((b₂ ++ 34 :: pair.value) ++ [34]) = 34 :: (pair.value ++ [34]) := by
    rw [List.append_assoc, List.cons_append, strip_behind h₂ (by decide) (by decide)]
  have hread := quoted_append (fun x hx => (pair.value_plain x hx).1) []
  rw [List.append_nil] at hread
  rw [importLine, hline, strip_within h₀ h₃ (by decide) (by decide), List.append_assoc,
    List.append_assoc b₁, List.cons_append]
  simp only [hkey, hequals, hvalue, hread, if_neg pair.nonempty,
    cstr_eq_self fun x hx => (pair.key_plain x hx).2.2,
    cstr_eq_self fun x hx => (pair.value_plain x hx).2.2]
  rfl

theorem importLine_entry {e : Entry} {line : Bytes} (h : LineOf e line) (c : ConfigMap) :
    importLine c line = c.step e.call := by
  cases h with
  | enter name h₀ h₁ h₂ h₃ => exact importLine_enter name h₀ h₁ h₂ h₃ c
  | set pair h₀ h₁ h₂ h₃ => exact importLine_set pair h₀ h₁ h₂ h₃ c

theorem Rendering.import {entries : List Entry} {lines : List Bytes} (h : Rendering entries lines)
    (c : ConfigMap) :
    lines.foldl importLine c = (entries.map Entry.call).foldl ConfigMap.step c := by
  induction h generalizing c with
  | nil => rfl
  | other hline _ ih => rw [List.foldl_cons, importLine_other hline, ih]
  | entry hline _ ih =>
    rw [List.foldl_cons, importLine_entry hline, ih, List.map_cons, List.foldl_cons]

theorem LineOf.one_line {e : Entry} {line : Bytes} (h : LineOf e line) : 10 ∉ line := by
  cases h with
  | enter name h₀ h₁ h₂ h₃ =>
    have hname : (10 : UInt8) ∉ name.name := fun hmem => (name.plain 10 hmem).2.2.2 rfl
    simp [h₀.not_newline, h₁.not_newline, h₂.not_newline, h₃.not_newline, hname]
  | set pair h₀ h₁ h₂ h₃ =>
    have hkey : (10 : UInt8) ∉ pair.key := fun hmem => (pair.key_plain 10 hmem).2.1 rfl
    have hvalue : (10 : UInt8) ∉ pair.value := fun hmem => (pair.value_plain 10 hmem).2.1 rfl
    simp [h₀.not_newline, h₁.not_newline, h₂.not_newline, h₃.not_newline, hkey, hvalue]

theorem Rendering.one_line {entries : List Entry} {lines : List Bytes}
    (h : Rendering entries lines) : ∀ line ∈ lines, 10 ∉ line := by
  induction h with
  | nil => exact fun line hline => absurd hline List.not_mem_nil
  | other hline _ ih => exact List.forall_mem_cons.mpr ⟨hline.1, ih⟩
  | entry hline _ ih => exact List.forall_mem_cons.mpr ⟨hline.one_line, ih⟩

/-- A file whose lines say the entries makes their calls. -/
theorem importFile_rendering {entries : List Entry} {lines : List Bytes}
    (h : Rendering entries lines) (c : ConfigMap) :
    importFile c (some ([10].intercalate lines)) =
      (0, (entries.map Entry.call).foldl ConfigMap.step c) := by
  rw [importFile, ← h.import]
  by_cases hnil : lines = []
  · subst hnil
    rfl
  · rw [List.splitOn_intercalate 10 h.one_line hnil]

/-! ## What a configuration means -/

/-- The value of the last pair with the key `k`. -/
def lastWith (pairs : List ConfigPair) (k : Bytes) : Option Bytes :=
  (pairs.filter (·.key = k)).getLast?.map ConfigPair.value

/-- The value of the last pair with the key `k` in the sections that `nameOf`
takes for `s`. -/
def valueIn (nameOf : Bytes → Bytes) (config : Settings) (s k : Bytes) : Option Bytes :=
  lastWith ((config.filter fun sec => nameOf sec.1.name = nameOf s).flatMap Prod.snd) k

theorem lastWith_append (pairs pairs' : List ConfigPair) (k : Bytes) :
    lastWith (pairs ++ pairs') k = (lastWith pairs' k).or (lastWith pairs k) := by
  rw [lastWith, List.filter_append, List.getLast?_append, Option.map_or]
  rfl

theorem lastWith_singleton (pair : ConfigPair) (k : Bytes) :
    lastWith [pair] k = if k = pair.key then some pair.value else none := by
  rw [lastWith, List.filter_singleton]
  by_cases hk : k = pair.key
  · simp [hk]
  · simp [hk, Ne.symm hk]

/-- A name without slashes is at most one component. -/
theorem components_eq {x : Bytes} (h : ∀ c ∈ x, c ≠ 47 ∧ c ≠ 92) :
    components x = if strip x = [] then [] else [strip x] := by
  have hmap : x.map (fun c => if c = 92 then 47 else c) = x := by
    conv_rhs => rw [← List.map_id x]
    exact List.map_congr_left fun c hc => if_neg (h c hc).2
  have hsplit : x.splitOn 47 = [x] := by
    have hone := @List.splitOn_intercalate UInt8 [x] _ _ 47
      (fun l hl => List.mem_singleton.mp hl ▸ fun hmem => (h 47 hmem).1 rfl) (List.cons_ne_nil _ _)
    rwa [List.intercalate_singleton] at hone
  rw [components, hmap, hsplit, List.map_singleton, List.filter_singleton]
  by_cases hs : strip x = [] <;> simp [hs]

theorem components_inj {x y : Bytes} (hx : ∀ c ∈ x, c ≠ 47 ∧ c ≠ 92)
    (hy : ∀ c ∈ y, c ≠ 47 ∧ c ≠ 92) : components x = components y ↔ strip x = strip y := by
  rw [components_eq hx, components_eq hy]
  constructor
  · intro h
    split at h <;> split at h
    · rw [‹strip x = []›, ‹strip y = []›]
    · cases h
    · cases h
    · exact List.singleton_inj.mp h
  · intro h
    rw [h]

theorem SectionName.mem_plain (s : SectionName) {c : UInt8} (hc : c ∈ s.name) : c ≠ 47 ∧ c ≠ 92 :=
  ⟨(s.plain c hc).2.1, (s.plain c hc).2.2.1⟩

theorem mem_of_mem_cstr {s : Bytes} {c : UInt8} (h : c ∈ cstr s) : c ∈ s :=
  (List.takeWhile_sublist _).subset h

theorem mem_of_mem_strip {s : Bytes} {c : UInt8} (h : c ∈ strip s) : c ∈ s := by
  obtain ⟨b, b', -, -, hs⟩ := strip_split s
  rw [hs]
  exact List.mem_append_left _ (List.mem_append_right _ h)

namespace Sections

/-- The pairs of one section, from any map on. -/
theorem foldl_pairs : ∀ (pairs : List ConfigPair) (a : Sections),
    (((pairs.map Entry.set).map Entry.call).foldl step a).cur = a.cur ∧
      ∀ p k, (((pairs.map Entry.set).map Entry.call).foldl step a).map p k =
        (if p = a.cur then lastWith pairs k else none).or (a.map p k) := by
  intro pairs
  induction pairs with
  | nil =>
    intro a
    exact ⟨rfl, fun p k => by split <;> rfl⟩
  | cons pair pairs ih =>
    intro a
    obtain ⟨hcur, hmap⟩ := ih (a.setValue pair.key pair.value)
    refine ⟨hcur, fun p k => (hmap p k).trans ?_⟩
    show (if p = a.cur then lastWith pairs k else none).or
        ((a.setValue pair.key pair.value).map p k) =
      (if p = a.cur then lastWith ([pair] ++ pairs) k else none).or (a.map p k)
    rw [setValue_map, lastWith_append, lastWith_singleton]
    by_cases hp : p = a.cur
    · rw [if_pos hp, if_pos hp, Option.or_assoc]
      by_cases hk : k = pair.key
      · rw [if_pos ⟨hp, hk⟩, if_pos hk, Option.some_or]
      · rw [if_neg (fun h => hk h.2), if_neg hk, Option.none_or]
    · rw [if_neg hp, if_neg hp, if_neg (fun h => hp h.1)]

theorem foldl_config : ∀ (config : Settings) (a : Sections) (p : List Bytes) (k : Bytes),
    (((entriesOf config).map Entry.call).foldl step a).map p k =
      (lastWith ((config.filter fun sec => components (cstr (strip sec.1.name)) = p).flatMap
        Prod.snd) k).or (a.map p k) := by
  intro config
  induction config with
  | nil =>
    intro a p k
    rfl
  | cons sec config ih =>
    intro a p k
    have hpairs := (foldl_pairs sec.2 (a.step (Entry.enter sec.1).call)).2 p k
    have hcur : (a.step (Entry.enter sec.1).call).cur = components (cstr (strip sec.1.name)) := rfl
    have hmap : (a.step (Entry.enter sec.1).call).map = a.map := rfl
    rw [hcur, hmap] at hpairs
    rw [entriesOf, List.flatMap_cons, ← entriesOf, List.map_append, List.map_cons,
      List.foldl_append, List.foldl_cons, ih, hpairs, List.filter_cons]
    by_cases hp : components (cstr (strip sec.1.name)) = p
    · rw [if_pos hp.symm, if_pos (decide_eq_true hp), List.flatMap_cons, lastWith_append,
        Option.or_assoc]
    · rw [if_neg (Ne.symm hp), if_neg (by simpa using hp), Option.none_or]

end Sections

/-- **Reading back a configuration.** -/
theorem importFile_reads_back {config : Settings} {lines : List Bytes}
    (h : Rendering (entriesOf config) lines) (s : SectionName) (k : Bytes) :
    (importFile .init (some ([10].intercalate lines))).1 = 0 ∧
      ((importFile .init (some ([10].intercalate lines))).2.setSection (cstr s.name)).getValue k =
        valueIn (fun name => strip (cstr name)) config s.name k := by
  rw [importFile_rendering h]
  refine ⟨rfl, ?_⟩
  have hrun := (stands_run ((entriesOf config).map Entry.call)).setSection (cstr s.name)
  refine (hrun.1.getValue_eq k).trans ?_
  show (Sections.run ((entriesOf config).map Entry.call)).map (components (cstr s.name)) k = _
  rw [Sections.run, Sections.foldl_config, valueIn]
  have hsame : ∀ sec ∈ config, decide (components (cstr (strip sec.1.name)) =
      components (cstr s.name)) = decide (strip (cstr sec.1.name) = strip (cstr s.name)) := by
    intro sec _
    rw [decide_eq_decide, components_inj (fun c hc => sec.1.mem_plain
        (mem_of_mem_strip (mem_of_mem_cstr hc))) (fun c hc => s.mem_plain (mem_of_mem_cstr hc)),
      strip_cstr_strip]
  rw [List.filter_congr hsame]
  exact Option.or_none

/-! ### Names that agree up to a zero -/

/-- The key `k` with a one-character value. -/
def pairOf (value : UInt8) (h : value ≠ 34 ∧ value ≠ 10 ∧ value ≠ 0) : ConfigPair :=
  ⟨[107], [value], by decide +kernel, by decide +kernel, by simpa using h⟩

/-- Two sections whose names differ behind a zero. -/
def zeroConfig : Settings :=
  [(⟨[97, 0, 98], by decide +kernel, by decide +kernel⟩, [pairOf 49 (by decide +kernel)]),
    (⟨[97, 0, 99], by decide +kernel, by decide +kernel⟩, [pairOf 50 (by decide +kernel)])]

/-- The first section shows the value of the second. -/
theorem importFile_joins :
    ∃ lines, Rendering (entriesOf zeroConfig) lines ∧
      ((importFile .init (some ([10].intercalate lines))).2.setSection
        (cstr [97, 0, 98])).getValue [107] = some [50] ∧
      valueIn strip zeroConfig [97, 0, 98] [107] = some [49] := by
  refine ⟨_, .entry (.enter _ blank_nil blank_nil blank_nil blank_nil)
    (.entry (.set _ blank_nil blank_nil blank_nil blank_nil)
      (.entry (.enter _ blank_nil blank_nil blank_nil blank_nil)
        (.entry (.set _ blank_nil blank_nil blank_nil blank_nil) .nil))), ?_, ?_⟩
  · decide +kernel
  · decide +kernel

/-- One section whose key is set twice. -/
def plainConfig : Settings :=
  [(⟨[97], by decide +kernel, by decide +kernel⟩,
    [pairOf 49 (by decide +kernel), pairOf 50 (by decide +kernel)])]

/-- A blank line stands in front, and white space around the name. -/
theorem importFile_reads_back_plain :
    ∃ lines, Rendering (entriesOf plainConfig) lines ∧
      ((importFile .init (some ([10].intercalate lines))).2.setSection [97]).getValue [107] =
        some [50] := by
  have hblank : Blank [32, 9] := by unfold Blank; decide +kernel
  have hlines : Rendering (entriesOf plainConfig) _ :=
    .other (⟨by decide +kernel, by decide +kernel⟩ : OtherLine [32])
      (.entry (.enter _ hblank hblank hblank hblank)
        (.entry (.set _ blank_nil blank_nil blank_nil blank_nil)
          (.entry (.set _ blank_nil blank_nil blank_nil blank_nil) .nil)))
  obtain ⟨-, hread⟩ :=
    importFile_reads_back hlines ⟨[97], by decide +kernel, by decide +kernel⟩ [107]
  exact ⟨_, hlines, hread.trans (by decide +kernel)⟩

end CommonTools.Http
