import CommonTools.Lib.Buffer
import CommonTools.Lib.Text
import CommonTools.Http.Message

/-! # Building and dumping messages

The requests of the client and the responses of the server keep their fields
and their content in the same way, and print them into a buffer with the same
function. `snprintf` cuts what does not fit and still returns the length of the
whole text, so the function notices only at its next step, if there is one. -/
namespace CommonTools.Http
open CommonTools.Lib

/-- `line_sep`. -/
def lineSep : Bytes := [13, 10]

/-- `field_vals` and `content_buff` of a message, as its functions leave them. -/
structure Parts (F : Type) (Content_Length : F) where
  field_vals : F → Option Bytes
  content_buff : Option Bytes
  value : ∀ {f v}, field_vals f = some v → NulFree v ∧ (v.length : Int) < INT_MAX
  size : ∀ {c}, content_buff = some c → c.length + 10 < 2 ^ 32
  content_length : field_vals Content_Length = content_buff.map fun c => decimalText c.length

section
variable {F : Type} {Content_Length : F}

def Parts.empty : Parts F Content_Length where
  field_vals _ := none
  content_buff := none
  value h := nomatch h
  size h := nomatch h
  content_length := rfl

variable [DecidableEq F]

/-- A value in `field_vals`, or none where `malloc` has failed. -/
def Parts.store (p : Parts F Content_Length) (field : F) (hfield : field ≠ Content_Length)
    (val : Option Bytes) (hval : ∀ v ∈ val, NulFree v ∧ (v.length : Int) < INT_MAX) :
    Parts F Content_Length where
  field_vals := Function.update p.field_vals field val
  content_buff := p.content_buff
  value {f v} h := by
    by_cases hf : f = field
    · rw [hf, Function.update_self] at h
      exact hval v h
    · rw [Function.update_of_ne hf] at h
      exact p.value h
  size := p.size
  content_length := by
    rw [Function.update_of_ne hfield.symm]
    exact p.content_length

/-- `setField`. The length is an `int`; a negative size fails `malloc`, but a
length of -1 asks for no memory and copies behind it. -/
def Parts.setField (p : Parts F Content_Length) (field : F) (field_value : Bytes) :
    Except Stop (Int × Parts F Content_Length) :=
  if hfield : field = Content_Length then .ok (-1, p)
  else
    let val_len := toInt32 (cstr field_value).length
    if hlen : val_len < INT_MAX then
      if val_len = -1 then .error .undefined
      else if val_len < 0 then .ok (-1, p.store field hfield none fun _ h => nomatch h)
      else .ok (0, p.store field hfield (some ((cstr field_value).take val_len.toNat))
        fun v hv => by
          obtain rfl := Option.some.inj hv
          refine ⟨(nulFree_cstr _).take _, ?_⟩
          have hle := List.length_take_le val_len.toNat (cstr field_value)
          have hmax : (0 : Int) < INT_MAX := by decide
          omega)
    else .error .undefined

/-- The message with `content` and its length. -/
def Parts.filled (p : Parts F Content_Length) (content : Bytes)
    (h : content.length + 10 < 2 ^ 32) : Parts F Content_Length where
  field_vals := Function.update p.field_vals Content_Length (some (decimalText content.length))
  content_buff := some content
  value {f v} hv := by
    by_cases hf : f = Content_Length
    · rw [hf, Function.update_self] at hv
      obtain rfl := Option.some.inj hv
      have hlen := @decimalText_length_le content.length 10 (by decide) (by omega)
      exact ⟨nulFree_decimalText _, by unfold INT_MAX; omega⟩
    · rw [Function.update_of_ne hf] at hv
      exact p.value hv
  size hc := by
    obtain rfl := Option.some.inj hc
    exact h
  content_length := Function.update_self ..

theorem Parts.filled_field (p : Parts F Content_Length) (content : Bytes)
    (h : content.length + 10 < 2 ^ 32) (f : F) : (p.filled content h).field_vals f =
      if f = Content_Length then some (decimalText content.length) else p.field_vals f :=
  Function.update_apply ..

/-- `fillContent` with `content_len` bytes; `malloc` gets `content_len + 10` as
an `unsigned int`. -/
def Parts.fillContent (p : Parts F Content_Length) (content : Bytes) :
    Except Stop (Int × Parts F Content_Length) :=
  if h : content.length + 10 < 2 ^ 32 then .ok (0, p.filled content h)
  else .error .undefined

end

/-! ## `dump_to_buff` -/

/-- One `snprintf` at the end of what is printed, and the check of its result.
It returns -1 for a text longer than an `int`. -/
def dumpText (max_dest_len : Nat) (state : Bytes × Int) (text : Bytes) :
    Except Stop (Bytes × Int) :=
  let (dest, head_print_len) := state
  -- outside of the buffer, the size that is left is negative
  if head_print_len < 0 ∨ (max_dest_len : Int) < head_print_len then .error .undefined
  else
    let write_count : Int := if INT_MAX < text.length then -1 else text.length
    if write_count ≠ toInt32 text.length then .error (.returns (-1))
    else if INT_MAX < head_print_len + write_count then .error .undefined
    else
      .ok (printAt dest head_print_len.toNat (max_dest_len - head_print_len.toNat) text,
        head_print_len + write_count)

/-- The return value of `dump_to_buff`, the buffer and `len`. -/
structure Dumped where
  ret : Int
  dest : Bytes
  len : Int

section
variable {F : Type} {Content_Length : F}

/-- The lines of the fields that are set, in the order of their table. -/
def Parts.lines (p : Parts F Content_Length) (names : List (F × Bytes)) : List Bytes :=
  names.filterMap fun (field, name) =>
    (p.field_vals field).map fun val => name ++ val ++ lineSep

/-- The end of `dump_to_buff`, behind the empty line. -/
def dumpContent (p : Parts F Content_Length) (max_dest_len : Nat) (state : Bytes × Int) :
    Except Stop Dumped :=
  let (dest, head_print_len) := state
  match p.field_vals Content_Length with
  | none => .ok ⟨0, dest, head_print_len⟩
  | some val =>
    let body_len := atoi val
    if INT_MAX < head_print_len + body_len then .error .undefined
    else if (max_dest_len : Int) < head_print_len + body_len then .ok ⟨-1, dest, head_print_len⟩
    else
      let content := p.content_buff.getD []
      let len := head_print_len + body_len
      -- `memcpy` of too much, or the zero behind the last byte of the buffer
      if body_len < 0 ∨ (content.length : Int) < body_len ∨ (max_dest_len : Int) ≤ len then
        .error .undefined
      else
        let dest := writeAt dest head_print_len.toNat (content.take body_len.toNat)
        .ok ⟨0, writeAt dest len.toNat [0], len⟩

/-- `dump_to_buff` for a first line and a table of field names. In
`.error (.returns _)` it has not set `len`. -/
def dumpToBuff (names : List (F × Bytes)) (firstLine : Bytes) (p : Parts F Content_Length)
    (dest : Bytes) (max_dest_len : Nat) : Except Stop Dumped := do
  let state ← dumpText max_dest_len (dest, 0) firstLine
  let state ← (p.lines names).foldlM (dumpText max_dest_len) state
  let state ← dumpText max_dest_len state lineSep
  dumpContent p max_dest_len state

/-! ## What is printed -/

/-- The header with the empty line. -/
def Parts.head (p : Parts F Content_Length) (names : List (F × Bytes)) (firstLine : Bytes) :
    Bytes :=
  firstLine ++ ((p.lines names).flatten ++ lineSep)

def Parts.serialise (p : Parts F Content_Length) (names : List (F × Bytes)) (firstLine : Bytes) :
    Bytes :=
  p.head names firstLine ++ p.content_buff.getD []

end

/-- `text` has been printed, as far as the buffer goes. -/
structure Printed (max_dest_len : Nat) (text : Bytes) (state : Bytes × Int) : Prop where
  head : state.2 = text.length
  size : state.1.length = max_dest_len
  whole : text.length < max_dest_len → state.1.take text.length = text
  cut : text ≠ [] → text.length = max_dest_len → state.1.getLast? = some 0

section
variable {max_dest_len : Nat} {pre text : Bytes} {state state' : Bytes × Int}

theorem Printed.init {dest : Bytes} (hdest : dest.length = max_dest_len) :
    Printed max_dest_len [] (dest, 0) :=
  ⟨rfl, hdest, fun _ => rfl, fun h => absurd rfl h⟩

/-- A text that is short enough for an `int` and for the buffer is printed. -/
theorem dumpText_fits (h : Printed max_dest_len pre state) (hmax : (max_dest_len : Int) ≤ INT_MAX)
    (hfits : pre.length + text.length ≤ max_dest_len) :
    ∃ state', dumpText max_dest_len state text = .ok state' := by
  obtain ⟨dest, head⟩ := state
  obtain rfl : head = pre.length := h.head
  have hint : toInt32 text.length = text.length := toInt32_natCast (by omega)
  simp only [dumpText]
  rw [if_neg (by omega : ¬ INT_MAX < (text.length : Int)), hint, if_neg (by omega),
    if_neg (by simp), if_neg (by omega)]
  exact ⟨_, rfl⟩

theorem dumpText_cases (hok : dumpText max_dest_len state text = .ok state') :
    (0 ≤ state.2 ∧ state.2 ≤ max_dest_len) ∧ ∃ write_count : Int,
      write_count = (if INT_MAX < text.length then -1 else (text.length : Int)) ∧
      write_count = toInt32 text.length ∧
      state' = (printAt state.1 state.2.toNat (max_dest_len - state.2.toNat) text,
        state.2 + write_count) := by
  simp only [dumpText] at hok
  generalize hwc : (if INT_MAX < (text.length : Int) then -1 else (text.length : Int)) = write_count
    at hok
  by_cases hin : state.2 < 0 ∨ (max_dest_len : Int) < state.2
  · rw [if_pos hin] at hok
    cases hok
  rw [if_neg hin] at hok
  by_cases hcount : write_count = toInt32 text.length
  · rw [if_neg (not_not.mpr hcount)] at hok
    split at hok
    · cases hok
    · exact ⟨by omega, write_count, rfl, hcount, (Except.ok.inj hok).symm⟩
  · rw [if_pos hcount] at hok
    cases hok

theorem dumpText_negative (h : state.2 < 0) :
    dumpText max_dest_len state text = .error .undefined := by
  simp only [dumpText]
  rw [if_pos (.inl h)]

/-- What one step prints. Only a text near the end of `unsigned int` can have
the length that stands for a failure. -/
theorem dumpText_printed (h : Printed max_dest_len pre state) (hne : text ≠ [])
    (hshort : text.length + 1 < 2 ^ 32) (hok : dumpText max_dest_len state text = .ok state') :
    Printed max_dest_len (pre ++ text) state' := by
  obtain ⟨⟨-, hin⟩, write_count, hwc, hcount, rfl⟩ := dumpText_cases hok
  obtain ⟨dest, head⟩ := state
  obtain rfl : head = pre.length := h.head
  have hsize : dest.length = max_dest_len := h.size
  have hpos := List.length_pos_iff.mpr hne
  dsimp only at hin ⊢
  have hle : (text.length : Int) ≤ INT_MAX := by
    by_contra hlong
    rw [if_pos (by omega)] at hwc
    rw [hwc, toInt32] at hcount
    have hmod : ((text.length : Int).bmod (2 ^ 32)) % (2 ^ 32) = (text.length : Int) % (2 ^ 32) :=
      Int.bmod_emod
    rw [← hcount] at hmod
    omega
  rw [if_neg (by omega)] at hwc
  subst hwc
  rw [Int.toNat_natCast]
  have hin' : pre.length ≤ dest.length := by omega
  rw [← hsize]
  refine ⟨by rw [List.length_append]; omega, printAt_length hin', fun hlt => ?_, fun _ heq => ?_⟩
  · rw [List.length_append] at hlt ⊢
    rw [take_printAt hlt, h.whole (by omega)]
  · rw [List.length_append] at heq
    exact getLast?_printAt (by omega) (by omega)

theorem foldlM_dumpText_fits (hmax : (max_dest_len : Int) ≤ INT_MAX) :
    ∀ {texts : List Bytes} {pre : Bytes} {state : Bytes × Int}, Printed max_dest_len pre state →
      (∀ text ∈ texts, text ≠ []) → pre.length + texts.flatten.length ≤ max_dest_len →
      ∃ state', texts.foldlM (dumpText max_dest_len) state = .ok state' := by
  intro texts
  induction texts with
  | nil =>
    intro _ state _ _ _
    exact ⟨state, rfl⟩
  | cons text texts ih =>
    intro pre state h hne hfits
    rw [List.flatten_cons, List.length_append] at hfits
    obtain ⟨mid, hmid⟩ := @dumpText_fits _ _ text _ h hmax (by omega)
    have hlt : (max_dest_len : Int) < 2 ^ 31 := by unfold INT_MAX at hmax; omega
    have hp := dumpText_printed h (hne text List.mem_cons_self) (by omega) hmid
    rw [List.foldlM_cons, hmid]
    exact ih hp (fun t ht => hne t (List.mem_cons_of_mem text ht))
      (by rw [List.length_append]; omega)

theorem foldlM_dumpText_printed :
    ∀ {texts : List Bytes} {pre : Bytes} {state state' : Bytes × Int},
      Printed max_dest_len pre state →
      (∀ text ∈ texts, text ≠ [] ∧ text.length + 1 < 2 ^ 32) →
      texts.foldlM (dumpText max_dest_len) state = .ok state' →
      Printed max_dest_len (pre ++ texts.flatten) state' := by
  intro texts
  induction texts with
  | nil =>
    intro pre state state' h _ hok
    obtain rfl := Except.ok.inj hok
    rwa [List.flatten_nil, List.append_nil]
  | cons text texts ih =>
    intro pre state state' h htexts hok
    obtain ⟨hne, hshort⟩ := htexts text List.mem_cons_self
    rw [List.foldlM_cons] at hok
    cases hmid : dumpText max_dest_len state text with
    | error why =>
      rw [hmid] at hok
      cases hok
    | ok mid =>
      rw [hmid] at hok
      have hrest := ih (dumpText_printed h hne hshort hmid)
        (fun t ht => htexts t (List.mem_cons_of_mem text ht)) hok
      rwa [List.append_assoc, ← List.flatten_cons] at hrest

end

/-! ## Whole messages and others -/

section
variable {F : Type} {Content_Length : F} {p : Parts F Content_Length} {names : List (F × Bytes)}
variable {firstLine dest : Bytes} {max_dest_len : Nat} {d : Dumped}

/-- The texts that are printed in front of the content. -/
def Parts.headLines (p : Parts F Content_Length) (names : List (F × Bytes)) (firstLine : Bytes) :
    List Bytes :=
  firstLine :: (p.lines names ++ [lineSep])

theorem Parts.flatten_headLines (p : Parts F Content_Length) (names : List (F × Bytes))
    (firstLine : Bytes) : (p.headLines names firstLine).flatten = p.head names firstLine := by
  rw [Parts.headLines, List.flatten_cons, List.flatten_append, List.flatten_singleton, Parts.head]

theorem dumpToBuff_eq : dumpToBuff names firstLine p dest max_dest_len =
    (p.headLines names firstLine).foldlM (dumpText max_dest_len) (dest, 0) >>=
      dumpContent p max_dest_len := by
  simp only [dumpToBuff, Parts.headLines, List.foldlM_cons, List.foldlM_append, List.foldlM_nil,
    bind_assoc, bind_pure]

/-- A line of a field is not empty, and far from the end of `unsigned int` if
its name is. -/
theorem Parts.line_length (hnames : ∀ e ∈ names, e.2.length < 2 ^ 16) {text : Bytes}
    (htext : text ∈ p.lines names) : text ≠ [] ∧ text.length + 1 < 2 ^ 32 := by
  obtain ⟨⟨field, name⟩, hmem, hval⟩ := List.mem_filterMap.mp htext
  obtain ⟨val, hset, rfl⟩ := Option.map_eq_some_iff.mp hval
  have hname : name.length < 2 ^ 16 := hnames _ hmem
  have hshort := (p.value hset).2
  refine ⟨by simp [lineSep], ?_⟩
  unfold INT_MAX at hshort
  simp only [List.length_append, lineSep, List.length_cons, List.length_nil]
  omega

theorem Parts.line_ne_nil {text : Bytes} (htext : text ∈ p.lines names) : text ≠ [] := by
  obtain ⟨⟨field, name⟩, -, hval⟩ := List.mem_filterMap.mp htext
  obtain ⟨val, -, rfl⟩ := Option.map_eq_some_iff.mp hval
  simp [lineSep]

theorem Parts.headLine_ne_nil (hfirst : firstLine ≠ []) :
    ∀ text ∈ p.headLines names firstLine, text ≠ [] := by
  intro text htext
  rcases List.mem_cons.mp htext with rfl | htext
  · exact hfirst
  · rcases List.mem_append.mp htext with htext | htext
    · exact Parts.line_ne_nil htext
    · rw [List.mem_singleton.mp htext]
      exact List.cons_ne_nil _ _

/-- The number that `fillContent` has printed. -/
theorem Parts.body_len {content : Bytes} (hc : p.content_buff = some content) :
    p.field_vals Content_Length = some (decimalText content.length) := by
  rw [p.content_length, hc]
  rfl

theorem Parts.no_body (hc : p.content_buff = none) : p.field_vals Content_Length = none := by
  rw [p.content_length, hc]
  rfl

/-- The content behind a header that has been printed whole. -/
theorem dumpContent_whole {head : Bytes} {state : Bytes × Int}
    (h : Printed max_dest_len head state) (hmax : (max_dest_len : Int) ≤ INT_MAX)
    (hfits : head.length + (p.content_buff.getD []).length < max_dest_len) :
    ∃ dest', dumpContent p max_dest_len state =
        .ok ⟨0, dest', (head.length + (p.content_buff.getD []).length : Nat)⟩ ∧
      dest'.length = max_dest_len ∧
      dest'.take (head.length + (p.content_buff.getD []).length) =
        head ++ p.content_buff.getD [] := by
  obtain ⟨dest, len⟩ := state
  obtain rfl : len = head.length := h.head
  have hsize : dest.length = max_dest_len := h.size
  have hwhole : dest.take head.length = head := h.whole (by omega)
  cases hc : p.content_buff with
  | none =>
    simp only [dumpContent, p.no_body hc, Option.getD_none, List.length_nil, Nat.add_zero,
      List.append_nil]
    exact ⟨dest, rfl, hsize, hwhole⟩
  | some content =>
    rw [hc, Option.getD_some] at hfits
    have hbody : atoi (decimalText content.length) = content.length := by
      rw [atoi_decimalText]
      unfold INT_MAX at hmax
      exact Scanf.toInt_natCast (by omega)
    simp only [dumpContent, p.body_len hc, hc, hbody, Option.getD_some]
    rw [if_neg (by omega), if_neg (by omega), if_neg (by omega)]
    simp only [Int.toNat_natCast, ← Int.natCast_add, List.take_length]
    have hcopy := @take_writeAt _ dest content head.length (by omega)
    have hlen := @writeAt_length _ dest content head.length (by omega)
    rw [hwhole] at hcopy
    refine ⟨_, rfl, ?_, ?_⟩
    · rw [writeAt_length (by rw [List.length_singleton]; omega), hlen, hsize]
    · -- the terminator stands behind the message
      rw [writeAt, List.append_assoc, List.take_left' (by rw [List.length_take]; omega), hcopy]

theorem head_printed (hfirst : firstLine ≠ []) (hdest : dest.length = max_dest_len)
    (hmax : (max_dest_len : Int) ≤ INT_MAX)
    (hfits : (p.head names firstLine).length < max_dest_len) :
    ∃ state, (p.headLines names firstLine).foldlM (dumpText max_dest_len) (dest, 0) = .ok state ∧
      Printed max_dest_len (p.head names firstLine) state := by
  have hinit := Printed.init hdest
  have hne : ∀ text ∈ p.headLines names firstLine, text ≠ [] := Parts.headLine_ne_nil hfirst
  rw [← p.flatten_headLines] at hfits ⊢
  obtain ⟨state, hstate⟩ := foldlM_dumpText_fits hmax hinit hne
    (by rw [List.length_nil, Nat.zero_add]; exact Nat.le_of_lt hfits)
  have hlt : (max_dest_len : Int) < 2 ^ 31 := by unfold INT_MAX at hmax; omega
  have hprinted := foldlM_dumpText_printed hinit (fun text htext => ⟨hne text htext, by
    have hle := List.Sublist.length_le (List.sublist_flatten_of_mem htext)
    omega⟩) hstate
  exact ⟨state, hstate, hprinted⟩

/-- **A message with room to spare is dumped whole.** -/
theorem dumpToBuff_whole (hfirst : firstLine ≠ []) (hdest : dest.length = max_dest_len)
    (hmax : (max_dest_len : Int) ≤ INT_MAX)
    (hfits : (p.serialise names firstLine).length < max_dest_len) :
    ∃ dest', dumpToBuff names firstLine p dest max_dest_len =
        .ok ⟨0, dest', (p.serialise names firstLine).length⟩ ∧
      dest'.length = max_dest_len ∧
      dest'.take (p.serialise names firstLine).length = p.serialise names firstLine := by
  rw [Parts.serialise, List.length_append] at hfits ⊢
  obtain ⟨state, hstate, hprinted⟩ := @head_printed _ _ p names _ _ _ hfirst hdest hmax (by omega)
  obtain ⟨dest', hok, hlen, htake⟩ := dumpContent_whole hprinted hmax hfits
  refine ⟨dest', ?_, hlen, htake⟩
  rw [dumpToBuff_eq, hstate]
  exact hok

/-- Of a message whose header fits and whose content does not, the header is
announced alone, and the function fails. -/
theorem dumpToBuff_header {content : Bytes} (hfirst : firstLine ≠ [])
    (hdest : dest.length = max_dest_len) (hmax : (max_dest_len : Int) ≤ INT_MAX)
    (hfits : (p.head names firstLine).length < max_dest_len)
    (hc : p.content_buff = some content)
    (hover : max_dest_len < (p.head names firstLine).length + content.length)
    (hint : ((p.head names firstLine).length + content.length : Int) ≤ INT_MAX) :
    ∃ dest', dumpToBuff names firstLine p dest max_dest_len =
        .ok ⟨-1, dest', (p.head names firstLine).length⟩ ∧
      dest'.length = max_dest_len ∧
      dest'.take (p.head names firstLine).length = p.head names firstLine := by
  obtain ⟨⟨dest', len⟩, hstate, hprinted⟩ := head_printed hfirst hdest hmax hfits
  obtain rfl : len = (p.head names firstLine).length := hprinted.head
  refine ⟨dest', ?_, hprinted.size, hprinted.whole hfits⟩
  have hbody : atoi (decimalText content.length) = content.length := by
    rw [atoi_decimalText]
    unfold INT_MAX at hint
    exact Scanf.toInt_natCast (by omega)
  have hok : dumpContent p max_dest_len (dest', (p.head names firstLine).length) =
      .ok ⟨-1, dest', (p.head names firstLine).length⟩ := by
    simp only [dumpContent, p.body_len hc, hbody]
    rw [if_neg (by omega), if_pos (by omega)]
  rw [dumpToBuff_eq, hstate]
  exact hok

/-- A first line whose length is no `int` ends the function. -/
theorem firstLine_length (hok : dumpToBuff names firstLine p dest max_dest_len = .ok d) :
    firstLine.length + 1 < 2 ^ 32 := by
  by_contra hlong
  rw [dumpToBuff_eq, Parts.headLines, List.foldlM_cons] at hok
  cases hfirst : dumpText max_dest_len (dest, 0) firstLine with
  | error why =>
    rw [hfirst] at hok
    cases hok
  | ok state =>
    obtain ⟨-, write_count, hwc, -, hstate⟩ := dumpText_cases hfirst
    rw [if_pos (by unfold INT_MAX; omega)] at hwc
    have hneg : state.2 < 0 := by
      rw [hstate, hwc]
      exact Int.negSucc_lt_zero 0
    -- there is always another line, and it starts in front of the buffer
    obtain ⟨text, texts, htexts⟩ := List.exists_cons_of_ne_nil
      (List.append_ne_nil_of_right_ne_nil (p.lines names) (List.cons_ne_nil lineSep []))
    rw [hfirst, htexts] at hok
    replace hok : (text :: texts).foldlM (dumpText max_dest_len) state >>=
      dumpContent p max_dest_len = .ok d := hok
    rw [List.foldlM_cons, dumpText_negative hneg] at hok
    cases hok

/-- When the function sets `len`, it has printed the header. -/
theorem dumpToBuff_printed (hfirst : firstLine ≠ []) (hnames : ∀ e ∈ names, e.2.length < 2 ^ 16)
    (hdest : dest.length = max_dest_len)
    (hok : dumpToBuff names firstLine p dest max_dest_len = .ok d) :
    ∃ state, Printed max_dest_len (p.head names firstLine) state ∧
      dumpContent p max_dest_len state = .ok d := by
  have hshort := firstLine_length hok
  rw [dumpToBuff_eq] at hok
  cases hstate : (p.headLines names firstLine).foldlM (dumpText max_dest_len) (dest, 0) with
  | error why =>
    rw [hstate] at hok
    cases hok
  | ok state =>
    rw [hstate] at hok
    have hprinted := foldlM_dumpText_printed (Printed.init hdest) (fun text htext => by
      rcases List.mem_cons.mp htext with rfl | htext
      · exact ⟨hfirst, hshort⟩
      · rcases List.mem_append.mp htext with htext | htext
        · exact Parts.line_length hnames htext
        · rw [List.mem_singleton.mp htext]
          exact ⟨List.cons_ne_nil _ _, by decide⟩) hstate
    rw [List.nil_append, p.flatten_headLines] at hprinted
    exact ⟨state, hprinted, hok⟩

/-- The `int` of a number that may be copied is the number. -/
theorem atoi_content {content : Bytes} (hc : p.content_buff = some content)
    (hpos : 0 ≤ atoi (decimalText content.length)) :
    atoi (decimalText content.length) = content.length := by
  have hsize := p.size hc
  have hmod : Scanf.toInt content.length % 2 ^ 32 = content.length := Scanf.toInt_emod (by omega)
  have hle := Scanf.toInt_le content.length
  rw [atoi_decimalText] at hpos ⊢
  omega

/-- A dump that succeeds says the length of the message. -/
theorem dumpToBuff_len (hfirst : firstLine ≠ []) (hnames : ∀ e ∈ names, e.2.length < 2 ^ 16)
    (hdest : dest.length = max_dest_len)
    (hok : dumpToBuff names firstLine p dest max_dest_len = .ok d) (hret : d.ret = 0) :
    d.len = (p.serialise names firstLine).length := by
  obtain ⟨⟨dest₁, len⟩, hprinted, hcontent⟩ := dumpToBuff_printed hfirst hnames hdest hok
  obtain rfl : len = (p.head names firstLine).length := hprinted.head
  rw [Parts.serialise, List.length_append, Int.natCast_add]
  cases hc : p.content_buff with
  | none =>
    simp only [dumpContent, p.no_body hc] at hcontent
    obtain rfl := Except.ok.inj hcontent
    exact (Int.add_zero _).symm
  | some content =>
    simp only [dumpContent, p.body_len hc] at hcontent
    split at hcontent
    · cases hcontent
    split at hcontent
    · obtain rfl := Except.ok.inj hcontent
      cases hret
    · split at hcontent
      · cases hcontent
      · rename_i hroom
        obtain rfl := Except.ok.inj hcontent
        rw [Option.getD_some, atoi_content hc (by omega)]

/-- The bytes of a dump that succeeds with room to spare. -/
theorem dumpToBuff_success (hfirst : firstLine ≠ []) (hnames : ∀ e ∈ names, e.2.length < 2 ^ 16)
    (hdest : dest.length = max_dest_len) (hint : (max_dest_len : Int) ≤ INT_MAX)
    (hok : dumpToBuff names firstLine p dest max_dest_len = .ok d) (hret : d.ret = 0)
    (hroom : d.len < max_dest_len) :
    (p.serialise names firstLine).length < max_dest_len ∧
      d.dest.take d.len.toNat = p.serialise names firstLine := by
  have hlen := dumpToBuff_len hfirst hnames hdest hok hret
  have hfits : (p.serialise names firstLine).length < max_dest_len := by omega
  obtain ⟨dest', hwhole, -, htake⟩ := dumpToBuff_whole hfirst hdest hint hfits
  rw [hwhole] at hok
  obtain rfl := Except.ok.inj hok
  exact ⟨hfits, by rw [Int.toNat_natCast]; exact htake⟩

/-- **A message without room to spare is not dumped whole.** If the function
sets `len` at all, it runs out of the buffer or the buffer holds something
else. -/
theorem dumpToBuff_long (hfirst : firstLine ≠ []) (hnames : ∀ e ∈ names, e.2.length < 2 ^ 16)
    (hdest : dest.length = max_dest_len)
    (hlong : max_dest_len ≤ (p.serialise names firstLine).length)
    (hok : dumpToBuff names firstLine p dest max_dest_len = .ok d) :
    d.dest.length = max_dest_len ∧ 0 < d.len ∧
      (d.len ≤ max_dest_len → d.dest.take d.len.toNat ≠ p.serialise names firstLine) := by
  obtain ⟨⟨dest₁, len⟩, hprinted, hcontent⟩ := dumpToBuff_printed hfirst hnames hdest hok
  obtain rfl : len = (p.head names firstLine).length := hprinted.head
  have hsize : dest₁.length = max_dest_len := hprinted.size
  have hpos : 0 < (p.head names firstLine).length := by
    rw [Parts.head, List.length_append]
    have := List.length_pos_iff.mpr hfirst
    omega
  rw [Parts.serialise, List.length_append] at hlong
  cases hc : p.content_buff with
  | none =>
    simp only [dumpContent, p.no_body hc] at hcontent
    obtain rfl := Except.ok.inj hcontent
    refine ⟨hsize, Int.natCast_pos.mpr hpos, fun hle heq => ?_⟩
    -- the header ends with the buffer, where its last byte has given way to a zero
    rw [hc, Option.getD_none, List.length_nil] at hlong
    dsimp only at hle heq
    rw [Int.toNat_natCast, List.take_of_length_le (by omega), Parts.serialise, hc,
      Option.getD_none, List.append_nil] at heq
    have hlast := hprinted.cut (List.ne_nil_of_length_pos hpos) (by omega)
    dsimp only at hlast
    rw [heq, Parts.head, List.getLast?_append, List.getLast?_append] at hlast
    cases hlast
  | some content =>
    simp only [dumpContent, p.body_len hc] at hcontent
    split at hcontent
    · cases hcontent
    split at hcontent
    · rename_i hover
      obtain rfl := Except.ok.inj hcontent
      refine ⟨hsize, Int.natCast_pos.mpr hpos, fun hle heq => ?_⟩
      -- the length is that of the header
      have hlen := congrArg List.length heq
      dsimp only at hle hlen
      rw [List.length_take, Parts.serialise, List.length_append, hc, Option.getD_some] at hlen
      have hbody : atoi (decimalText content.length) ≤ content.length := by
        rw [atoi_decimalText]
        exact Scanf.toInt_le _
      omega
    · split at hcontent
      · cases hcontent
      · rename_i hover hroom
        -- the content has been copied, so there was room for it
        have hbody := atoi_content hc (by omega)
        rw [hc, Option.getD_some] at hroom hlong
        omega

end

end CommonTools.Http
