import CommonTools.Http.HttpRequest
import CommonTools.Http.HttpResponse
import CommonTools.Lib.Runs

/-! # When a dump is exact

`dump_to_buff` compares what `snprintf` returns with the length of the text, and the
two differ for no text that an `int` can count. So the function stays inside the
buffer and says the truth about a message that fits, about one with a line too long
for an `int`, and about one of which only the content does not fit. -/
namespace CommonTools.Http
open CommonTools.Lib

/-! ## What is promised -/

/-- The return value, of a function that stays inside the buffer. -/
def returned : Except Stop Dumped → Option Int
  | .ok d => some d.ret
  | .error (.returns ret) => some ret
  | .error .undefined => none

/-- Nothing is written outside of `dest`, 0 says that the message and its terminator fit, and
then they are in `dest`. -/
def DumpsExactly (message : Bytes) (max_dest_len : Nat) (r : Except Stop Dumped) : Prop :=
  returned r ≠ none ∧ (returned r = some 0 ↔ message.length < max_dest_len) ∧
    ∀ d, r = .ok d → d.ret = 0 → d.dest.length = max_dest_len ∧ d.len = message.length ∧
      d.dest.take (message.length + 1) = message ++ [0]

section
variable {F : Type} {Content_Length : F} {p : Parts F Content_Length} {names : List (F × Bytes)}
variable {firstLine dest : Bytes} {max_dest_len : Nat} {d : Dumped}

/-- A line starts inside the buffer that `snprintf` cannot count. -/
def LineTooLong (texts : List Bytes) (max_dest_len : Nat) : Prop :=
  ∃ before text after, texts = before ++ text :: after ∧ before.flatten.length ≤ max_dest_len ∧
    INT_MAX < text.length ∧ toInt32 text.length ≠ -1

/-- The last line of the header starts inside the buffer, the content ends behind it, and
an `int` counts both. -/
def ContentTooLong (head : Bytes) (content_buff : Option Bytes) (max_dest_len : Nat) : Prop :=
  ∃ content, content_buff = some content ∧ head.length ≤ max_dest_len + lineSep.length ∧
    max_dest_len < head.length + content.length ∧
    ((head.length + content.length : Nat) : Int) ≤ INT_MAX

/-- The messages and buffers that `dump_to_buff` gets right. -/
def DumpRight (p : Parts F Content_Length) (names : List (F × Bytes)) (firstLine : Bytes)
    (max_dest_len : Nat) : Prop :=
  (p.serialise names firstLine).length < max_dest_len ∨
    LineTooLong (p.headLines names firstLine) max_dest_len ∨
    ContentTooLong (p.head names firstLine) p.content_buff max_dest_len

/-! ## Steps that fail -/

theorem dumpText_returns_iff {state : Bytes × Int} {text : Bytes} {ret : Int} :
    dumpText max_dest_len state text = .error (.returns ret) ↔
      ret = -1 ∧ (0 ≤ state.2 ∧ state.2 ≤ max_dest_len) ∧ INT_MAX < text.length ∧
        toInt32 text.length ≠ -1 := by
  obtain ⟨dest, head⟩ := state
  simp only [dumpText]
  by_cases hin : head < 0 ∨ (max_dest_len : Int) < head
  · rw [if_pos hin]
    constructor
    · intro h
      cases h
    · rintro ⟨-, hin', -⟩
      omega
  rw [if_neg hin]
  by_cases hlong : INT_MAX < (text.length : Int)
  · rw [if_pos hlong]
    by_cases hcount : toInt32 text.length = -1
    · rw [if_neg (not_not.mpr hcount.symm)]
      refine iff_of_false ?_ fun h => h.2.2.2 hcount
      split
      · intro h
        cases h
      · intro h
        cases h
    · rw [if_pos (Ne.symm hcount)]
      constructor
      · intro h
        injection h with h
        injection h with h
        exact ⟨h.symm, by omega, hlong, hcount⟩
      · rintro ⟨rfl, -⟩
        rfl
  · rw [if_neg hlong, toInt32_natCast (Int.not_lt.mp hlong), if_neg (not_not.mpr rfl)]
    refine iff_of_false ?_ fun h => hlong h.2.2.1
    split
    · intro h
      cases h
    · intro h
      cases h

/-- The lines behind the first are short enough to be counted wrong by no `int`. -/
theorem Parts.tail_length (hnames : ∀ e ∈ names, e.2.length < 2 ^ 16) :
    ∀ text ∈ p.lines names ++ [lineSep], text ≠ [] ∧ text.length + 1 < 2 ^ 32 := by
  intro text htext
  rcases List.mem_append.mp htext with htext | htext
  · exact Parts.line_length hnames htext
  · rw [List.mem_singleton.mp htext]
    exact ⟨List.cons_ne_nil _ _, by decide⟩

theorem dumpText_ok_iff {n : Nat} {text : Bytes} (hint : (text.length : Int) ≤ INT_MAX) :
    (∃ state, dumpText max_dest_len (dest, (n : Int)) text = .ok state) ↔
      n ≤ max_dest_len ∧ ((n + text.length : Nat) : Int) ≤ INT_MAX := by
  simp only [dumpText]
  by_cases hin : (n : Int) < 0 ∨ (max_dest_len : Int) < n
  · rw [if_pos hin]
    refine iff_of_false ?_ fun h => ?_
    · rintro ⟨_, h⟩
      cases h
    · omega
  rw [if_neg hin, if_neg (Int.not_lt.mpr hint), toInt32_natCast hint, if_neg (not_not.mpr rfl)]
  by_cases hover : INT_MAX < (n : Int) + text.length
  · rw [if_pos hover]
    refine iff_of_false ?_ fun h => ?_
    · rintro ⟨_, h⟩
      cases h
    · omega
  · rw [if_neg hover]
    exact iff_of_true ⟨_, rfl⟩ ⟨by omega, by omega⟩

/-! ## The header -/

/-- A first line that an `int` counts as -1 leads in front of the buffer, and any other
so long is noticed. -/
theorem head_huge (hfirst : 2 ^ 32 ≤ firstLine.length + 1) :
    (p.headLines names firstLine).foldlM (dumpText max_dest_len) (dest, 0) =
      if toInt32 firstLine.length = -1 then .error .undefined else .error (.returns (-1)) := by
  have hlong : INT_MAX < (firstLine.length : Int) := by
    unfold INT_MAX
    omega
  rw [Parts.headLines, List.foldlM_cons]
  by_cases hcount : toInt32 firstLine.length = -1
  · rw [if_pos hcount]
    obtain ⟨text, texts, htexts⟩ := List.exists_cons_of_ne_nil
      (List.append_ne_nil_of_right_ne_nil (p.lines names) (List.cons_ne_nil lineSep []))
    cases hstep : dumpText max_dest_len (dest, 0) firstLine with
    | error why =>
      cases why with
      | undefined => rfl
      | returns ret => exact absurd hcount (dumpText_returns_iff.mp hstep).2.2.2
    | ok state =>
      obtain ⟨-, write_count, hwc, -, rfl⟩ := dumpText_cases hstep
      rw [if_pos hlong] at hwc
      rw [htexts]
      show (text :: texts).foldlM (dumpText max_dest_len) _ = _
      have hneg : (0 : Int) + write_count < 0 := by
        rw [hwc]
        decide
      rw [List.foldlM_cons, dumpText_negative hneg]
      rfl
  · rw [if_neg hcount, dumpText_returns_iff.mpr ⟨rfl, ⟨Int.le_refl 0, by omega⟩, hlong, hcount⟩]
    rfl

theorem firstLine_short {state : Bytes × Int}
    (hok : (p.headLines names firstLine).foldlM (dumpText max_dest_len) (dest, 0) = .ok state) :
    firstLine.length + 1 < 2 ^ 32 := by
  by_contra hlong
  rw [head_huge (Nat.le_of_not_lt hlong)] at hok
  split at hok
  · cases hok
  · cases hok

theorem headLines_run (state : Bytes × Int) :
    (p.headLines names firstLine).foldlM (dumpText max_dest_len) state =
      (firstLine :: p.lines names).foldlM (dumpText max_dest_len) state >>=
        fun state => dumpText max_dest_len state lineSep := by
  rw [Parts.headLines, ← List.cons_append, List.foldlM_append]
  simp only [List.foldlM_cons, List.foldlM_nil, bind_pure]

theorem Parts.head_eq : p.head names firstLine =
    (firstLine :: p.lines names).flatten ++ lineSep := by
  rw [Parts.head, List.flatten_cons, List.append_assoc]

section
variable (hfirst : firstLine ≠ []) (hnames : ∀ e ∈ names, e.2.length < 2 ^ 16)
  (hdest : dest.length = max_dest_len) (hmax : (max_dest_len : Int) ≤ INT_MAX)
include hfirst hnames

theorem Parts.headLine_short (hshort : firstLine.length + 1 < 2 ^ 32) :
    ∀ text ∈ p.headLines names firstLine, text ≠ [] ∧ text.length + 1 < 2 ^ 32 := by
  intro text htext
  rcases List.mem_cons.mp htext with rfl | htext
  · exact ⟨hfirst, hshort⟩
  · exact Parts.tail_length hnames text htext

theorem Parts.shortLines (hshort : firstLine.length + 1 < 2 ^ 32) :
    ∀ text ∈ firstLine :: p.lines names, text ≠ [] ∧ text.length + 1 < 2 ^ 32 := by
  intro text htext
  refine Parts.headLine_short (p := p) hfirst hnames hshort text ?_
  rw [Parts.headLines, ← List.cons_append]
  exact List.mem_append_left _ htext

include hdest

theorem lines_printed {mid : Bytes × Int} (hshort : firstLine.length + 1 < 2 ^ 32)
    (hmid : (firstLine :: p.lines names).foldlM (dumpText max_dest_len) (dest, 0) = .ok mid) :
    Printed max_dest_len (firstLine :: p.lines names).flatten mid := by
  have h := @foldlM_dumpText_printed _ (firstLine :: p.lines names) [] _ mid (Printed.init hdest)
    (Parts.shortLines hfirst hnames hshort) hmid
  rwa [List.nil_append] at h

/-- The last line is printed behind the lines of the fields. -/
theorem head_split {state : Bytes × Int}
    (hok : (p.headLines names firstLine).foldlM (dumpText max_dest_len) (dest, 0) = .ok state) :
    ∃ mid, Printed max_dest_len (firstLine :: p.lines names).flatten mid ∧
      dumpText max_dest_len mid lineSep = .ok state := by
  have hshort := firstLine_short hok
  rw [headLines_run] at hok
  cases hmid : (firstLine :: p.lines names).foldlM (dumpText max_dest_len) (dest, 0) with
  | error why =>
    rw [hmid] at hok
    cases hok
  | ok mid =>
    rw [hmid] at hok
    exact ⟨mid, lines_printed hfirst hnames hdest hshort hmid, hok⟩

include hmax

/-- The header is printed, whole or not, when its last line starts inside the buffer. -/
theorem head_ok_iff :
    (∃ state, (p.headLines names firstLine).foldlM (dumpText max_dest_len) (dest, 0) = .ok state) ↔
      (p.head names firstLine).length ≤ max_dest_len + lineSep.length ∧
        ((p.head names firstLine).length : Int) ≤ INT_MAX := by
  have hlen : (p.head names firstLine).length =
      (firstLine :: p.lines names).flatten.length + lineSep.length := by
    rw [Parts.head_eq, List.length_append]
  have hlast : ∀ {state : Bytes × Int},
      Printed max_dest_len (firstLine :: p.lines names).flatten state →
      ((∃ state', dumpText max_dest_len state lineSep = .ok state') ↔
        (p.head names firstLine).length ≤ max_dest_len + lineSep.length ∧
          ((p.head names firstLine).length : Int) ≤ INT_MAX) := by
    intro state h
    obtain ⟨dest', len⟩ := state
    obtain rfl : len = ((firstLine :: p.lines names).flatten.length : Int) := h.head
    rw [dumpText_ok_iff (by decide), hlen, Nat.add_le_add_iff_right]
  constructor
  · rintro ⟨state, hok⟩
    obtain ⟨mid, hprinted, hok⟩ := head_split hfirst hnames hdest hok
    exact (hlast hprinted).mp ⟨state, hok⟩
  · intro h
    have hin : (firstLine :: p.lines names).flatten.length ≤ max_dest_len := by omega
    have hshort : firstLine.length + 1 < 2 ^ 32 := by
      rw [List.flatten_cons, List.length_append] at hin
      unfold INT_MAX at hmax
      omega
    obtain ⟨mid, hmid⟩ := foldlM_dumpText_fits hmax (Printed.init hdest)
      (fun text htext => (Parts.shortLines hfirst hnames hshort text htext).1)
      (by rw [List.length_nil, Nat.zero_add]; exact hin)
    obtain ⟨state, hstate⟩ := (hlast (lines_printed hfirst hnames hdest hshort hmid)).mpr h
    refine ⟨state, ?_⟩
    rw [headLines_run, hmid]
    exact hstate

/-- The function gives up in the header exactly at a line that is too long for an `int`. -/
theorem head_returns_iff {ret : Int} :
    (p.headLines names firstLine).foldlM (dumpText max_dest_len) (dest, 0) =
        .error (.returns ret) ↔
      ret = -1 ∧ LineTooLong (p.headLines names firstLine) max_dest_len := by
  by_cases hshort : firstLine.length + 1 < 2 ^ 32
  · have htexts := Parts.headLine_short (p := p) hfirst hnames hshort
    rw [foldlM_error_iff]
    constructor
    · rintro ⟨before, text, after, mid, heq, hbefore, hfault⟩
      obtain ⟨rfl, hin, hlong, hcount⟩ := dumpText_returns_iff.mp hfault
      have hprinted := foldlM_dumpText_printed (Printed.init hdest) (fun t ht =>
        htexts t (by rw [heq]; exact List.mem_append_left _ ht)) hbefore
      have hhead := hprinted.head
      rw [List.nil_append] at hhead
      exact ⟨rfl, before, text, after, heq, by omega, hlong, hcount⟩
    · rintro ⟨rfl, before, text, after, heq, hle, hlong, hcount⟩
      have hbefore : ∀ t ∈ before, t ≠ [] ∧ t.length + 1 < 2 ^ 32 := fun t ht =>
        htexts t (by rw [heq]; exact List.mem_append_left _ ht)
      obtain ⟨mid, hmid⟩ := foldlM_dumpText_fits hmax (Printed.init hdest)
        (fun t ht => (hbefore t ht).1) (by rw [List.length_nil, Nat.zero_add]; exact hle)
      have hhead := (foldlM_dumpText_printed (Printed.init hdest) hbefore hmid).head
      rw [List.nil_append] at hhead
      exact ⟨before, text, after, mid, heq, hmid,
        dumpText_returns_iff.mpr ⟨rfl, by omega, hlong, hcount⟩⟩
  · have hhuge := Nat.le_of_not_lt hshort
    have hlong : INT_MAX < (firstLine.length : Int) := by
      unfold INT_MAX
      omega
    rw [head_huge hhuge]
    constructor
    · intro h
      split at h
      · cases h
      · rename_i hcount
        injection h with h
        injection h with h
        exact ⟨h.symm, [], firstLine, _, rfl, Nat.zero_le _, hlong, hcount⟩
    · rintro ⟨rfl, before, text, after, heq, hle, -, hcount⟩
      cases before with
      | nil =>
        obtain ⟨rfl, -⟩ := List.cons.inj heq
        rw [if_neg hcount]
      | cons t before =>
        obtain ⟨rfl, -⟩ := List.cons.inj heq
        rw [List.flatten_cons, List.length_append] at hle
        unfold INT_MAX at hmax
        omega

omit hmax in
/-- A header that has been printed has its terminator behind it, if there is room. -/
theorem head_closed {state : Bytes × Int}
    (hok : (p.headLines names firstLine).foldlM (dumpText max_dest_len) (dest, 0) = .ok state) :
    Printed max_dest_len (p.head names firstLine) state ∧
      ((p.head names firstLine).length < max_dest_len →
        state.1.take ((p.head names firstLine).length + 1) = p.head names firstLine ++ [0]) := by
  obtain ⟨mid, hprinted, hok⟩ := head_split hfirst hnames hdest hok
  rw [Parts.head_eq]
  refine ⟨dumpText_printed hprinted (List.cons_ne_nil _ _) (by decide) hok, fun hroom => ?_⟩
  obtain ⟨-, write_count, -, -, rfl⟩ := dumpText_cases hok
  obtain ⟨dest', len⟩ := mid
  obtain rfl : len = ((firstLine :: p.lines names).flatten.length : Int) := hprinted.head
  have hsize : dest'.length = max_dest_len := hprinted.size
  rw [List.length_append] at hroom ⊢
  have htake := @take_printAt_nul dest' lineSep (firstLine :: p.lines names).flatten.length
    (by rw [hsize]; exact hroom)
  rw [hprinted.whole (by omega), hsize] at htake
  exact htake

end

/-! ## The content -/

theorem dumpsExactly_undefined {message : Bytes} :
    ¬ DumpsExactly message max_dest_len (.error .undefined) := fun h => h.1 rfl

/-- A message is refused rightly exactly when it does not fit. -/
theorem dumpsExactly_refused {message : Bytes} {r : Except Stop Dumped}
    (hr : returned r = some (-1)) :
    DumpsExactly message max_dest_len r ↔ ¬ message.length < max_dest_len := by
  unfold DumpsExactly
  rw [hr]
  constructor
  · intro h hfits
    exact absurd (h.2.1.mpr hfits) (by decide)
  · intro h
    refine ⟨Option.some_ne_none _, iff_of_false (by decide) h, fun d hd hret => ?_⟩
    rw [hd, returned, hret] at hr
    exact absurd hr (by decide)

theorem dumpsExactly_done {message : Bytes} {len : Int} (hdest : dest.length = max_dest_len)
    (hlen : len = message.length)
    (hclosed : message.length < max_dest_len →
      dest.take (message.length + 1) = message ++ [0]) :
    DumpsExactly message max_dest_len (.ok ⟨0, dest, len⟩) ↔ message.length < max_dest_len := by
  constructor
  · intro h
    exact h.2.1.mp rfl
  · intro h
    refine ⟨Option.some_ne_none _, iff_of_true rfl h, fun d hd _ => ?_⟩
    obtain rfl := Except.ok.inj hd
    exact ⟨hdest, hlen, hclosed h⟩

/-- The `int` of a length that an `int` counts. -/
theorem atoi_short {n : Nat} (h : (n : Int) ≤ INT_MAX) : atoi (decimalText n) = n := by
  rw [atoi_decimalText]
  unfold INT_MAX at h
  exact Scanf.toInt_natCast (by omega)

/-- What the end of the function does behind a header that has been printed. -/
theorem dumpContent_exact_iff {head : Bytes} {state : Bytes × Int}
    (hprinted : Printed max_dest_len head state) (hmax : (max_dest_len : Int) ≤ INT_MAX)
    (hclosed : head.length < max_dest_len → state.1.take (head.length + 1) = head ++ [0])
    (hin : head.length ≤ max_dest_len + lineSep.length) :
    DumpsExactly (head ++ p.content_buff.getD []) max_dest_len
        (dumpContent p max_dest_len state) ↔
      (head ++ p.content_buff.getD []).length < max_dest_len ∨
        ContentTooLong head p.content_buff max_dest_len := by
  obtain ⟨dest, len⟩ := state
  obtain rfl : len = head.length := hprinted.head
  have hsize : dest.length = max_dest_len := hprinted.size
  cases hc : p.content_buff with
  | none =>
    have hnone : ¬ ContentTooLong head none max_dest_len := by
      rintro ⟨_, h, _⟩
      cases h
    simp only [dumpContent, p.no_body hc, Option.getD_none, List.append_nil]
    rw [dumpsExactly_done hsize rfl hclosed, or_iff_left hnone]
  | some content =>
    have hbody : (content.length : Int) ≤ INT_MAX → atoi (decimalText content.length) =
      content.length := atoi_short
    have hle : atoi (decimalText content.length) ≤ content.length := by
      rw [atoi_decimalText]
      exact Scanf.toInt_le _
    have hpos := @atoi_content _ _ p content hc
    have hsmall := p.size hc
    have hmod : (atoi (decimalText content.length)).emod (2 ^ 32) = content.length := by
      rw [atoi_decimalText]
      exact Scanf.toInt_emod (by omega)
    simp only [dumpContent, p.body_len hc, hc, Option.getD_some, List.length_append]
    generalize atoi (decimalText content.length) = body_len at hbody hle hpos hmod
    have hlong : ContentTooLong head (some content) max_dest_len ↔
        max_dest_len < head.length + content.length ∧
          ((head.length + content.length : Nat) : Int) ≤ INT_MAX := by
      constructor
      · rintro ⟨_, heq, -, hrest⟩
        obtain rfl := Option.some.inj heq
        exact hrest
      · intro h
        exact ⟨content, rfl, hin, h⟩
    rw [hlong]
    by_cases hover : INT_MAX < head.length + body_len
    · rw [if_pos hover]
      refine iff_of_false dumpsExactly_undefined fun h => ?_
      omega
    rw [if_neg hover]
    by_cases hfull : (max_dest_len : Int) < head.length + body_len
    · -- no `int` that is less than -1 stands for a length
      have htwo : lineSep.length = 2 := rfl
      have hnat : 0 ≤ body_len := by
        by_contra hneg
        obtain rfl : body_len = -1 := by omega
        rw [show (-1 : Int).emod (2 ^ 32) = 2 ^ 32 - 1 from rfl] at hmod
        omega
      rw [if_pos hfull, dumpsExactly_refused rfl, List.length_append]
      have heq := hpos hnat
      omega
    rw [if_neg hfull]
    by_cases hbad : body_len < 0 ∨ (content.length : Int) < body_len ∨
        (max_dest_len : Int) ≤ head.length + body_len
    · rw [if_pos hbad]
      refine iff_of_false dumpsExactly_undefined fun h => ?_
      omega
    · rw [if_neg hbad]
      obtain rfl := hpos (by omega)
      have hroom : head.length + content.length < dest.length := by omega
      have hcopy := @take_writeAt _ dest content head.length (by omega)
      have hlen := @writeAt_length _ dest content head.length (by omega)
      have hwhole : dest.take head.length = head := hprinted.whole (by omega)
      simp only [Int.toNat_natCast, List.take_length, ← Int.natCast_add]
      rw [hwhole] at hcopy
      refine iff_of_true ((dumpsExactly_done ?_ ?_ ?_).mpr ?_) (.inl (by omega))
      · rw [writeAt_length (by rw [List.length_singleton]; omega), hlen, hsize]
      · rw [List.length_append]
      · intro _
        have hnul := @take_writeAt _ (writeAt dest head.length content) [0]
          (head.length + content.length) (by omega)
        rw [hcopy] at hnul
        rw [List.length_append]
        exact hnul
      · rw [List.length_append]
        omega

/-- **When a dump is exact.** -/
theorem dumpToBuff_exact (hfirst : firstLine ≠ []) (hnames : ∀ e ∈ names, e.2.length < 2 ^ 16)
    (hdest : dest.length = max_dest_len) (hmax : (max_dest_len : Int) ≤ INT_MAX) :
    DumpsExactly (p.serialise names firstLine) max_dest_len
        (dumpToBuff names firstLine p dest max_dest_len) ↔
      DumpRight p names firstLine max_dest_len := by
  have hok := head_ok_iff (p := p) hfirst hnames hdest hmax
  have hreturns := @head_returns_iff _ _ p names firstLine dest _ hfirst hnames hdest hmax
  have hshort : ∀ {n : Nat}, (p.head names firstLine ++ p.content_buff.getD []).length < n →
      (p.head names firstLine).length < n := by
    intro n h
    rw [List.length_append] at h
    omega
  rw [dumpToBuff_eq]
  unfold DumpRight Parts.serialise
  cases hrun : (p.headLines names firstLine).foldlM (dumpText max_dest_len) (dest, 0) with
  | ok state =>
    obtain ⟨hprinted, hclosed⟩ := head_closed hfirst hnames hdest hrun
    obtain ⟨hin, -⟩ := hok.mp ⟨state, hrun⟩
    have hline : ¬ LineTooLong (p.headLines names firstLine) max_dest_len := by
      intro h
      have hback := hreturns.mpr ⟨rfl, h⟩
      rw [hrun] at hback
      cases hback
    show DumpsExactly _ _ (dumpContent p max_dest_len state) ↔ _
    rw [dumpContent_exact_iff hprinted hmax hclosed hin, or_iff_right hline]
  | error why =>
    -- neither the message nor its header fits
    have hnot : ¬ ((p.head names firstLine).length ≤ max_dest_len + lineSep.length ∧
        ((p.head names firstLine).length : Int) ≤ INT_MAX) := by
      intro h
      obtain ⟨state, hstate⟩ := hok.mpr h
      rw [hrun] at hstate
      cases hstate
    have hfits : ¬ (p.head names firstLine ++ p.content_buff.getD []).length < max_dest_len := by
      intro h
      have hlt := hshort h
      exact hnot ⟨by omega, by omega⟩
    have hcontent : ¬ ContentTooLong (p.head names firstLine) p.content_buff max_dest_len := by
      rintro ⟨content, -, hin, -, hint⟩
      exact hnot ⟨hin, by omega⟩
    rw [or_iff_right hfits, or_iff_left hcontent]
    cases why with
    | returns ret =>
      obtain ⟨rfl, hline⟩ := hreturns.mp hrun
      exact iff_of_true ((dumpsExactly_refused rfl).mpr hfits) hline
    | undefined =>
      refine iff_of_false dumpsExactly_undefined fun hline => ?_
      have hback := hreturns.mpr ⟨rfl, hline⟩
      rw [hrun] at hback
      cases hback

end

/-! ## Responses and requests -/

theorem httpHeaderFieldNames_short :
    ∀ e ∈ HttpClient.httpHeaderFieldNames, e.2.length < 2 ^ 16 := by
  decide

/-- **When the dump of a response or of a request is exact.** -/
theorem dumpToBuff_exact_iff (dest : Bytes) (hmax : (dest.length : Int) ≤ INT_MAX) :
    (∀ r : HttpResponse, DumpsExactly r.serialise dest.length (r.dumpToBuff dest dest.length) ↔
      DumpRight r.parts httpResponseFieldNames r.statusLine dest.length) ∧
    ∀ q : HttpClient.HttpRequest,
      DumpsExactly q.serialise dest.length (q.dumpToBuff dest dest.length) ↔
        DumpRight q.parts HttpClient.httpHeaderFieldNames (q.requestText ++ lineSep)
          dest.length := by
  refine ⟨?_, ?_⟩
  · intro r
    exact dumpToBuff_exact r.statusLine_ne_nil httpResponseFieldNames_short rfl hmax
  · intro q
    exact dumpToBuff_exact (List.append_ne_nil_of_right_ne_nil _ (List.cons_ne_nil _ _))
      httpHeaderFieldNames_short rfl hmax

/-- `200 OK` with a content of one byte. -/
def shortResponse : HttpResponse where
  version := .HTTP10
  code := .SC200
  parts := Parts.empty.filled [97] (by decide)

/-- In a buffer of 40 bytes there is room for it. -/
theorem dumpToBuff_exact_room : DumpsExactly shortResponse.serialise 40
    (shortResponse.dumpToBuff (List.replicate 40 0) 40) :=
  ((dumpToBuff_exact_iff (List.replicate 40 0) (by decide)).1 shortResponse).mpr (.inl (by decide))

/-- It is 39 bytes long, and with as many bytes in the buffer its terminator is written
behind the last one. -/
theorem dumpToBuff_terminator :
    shortResponse.serialise.length = 39 ∧
      ¬ DumpsExactly shortResponse.serialise 39
        (shortResponse.dumpToBuff (List.replicate 39 0) 39) := by
  have hrun : shortResponse.dumpToBuff (List.replicate 39 0) 39 = .error .undefined := by
    rfl
  refine ⟨rfl, ?_⟩
  rw [hrun]
  exact dumpsExactly_undefined

end CommonTools.Http
