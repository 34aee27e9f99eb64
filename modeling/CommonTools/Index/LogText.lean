import CommonTools.Gary.GaryString
import CommonTools.Index.DlgLogIndex
import CommonTools.Index.IndexDaSound
import CommonTools.Lib.Text

/-! # The texts of the log index

`MakeIndex` stores the normalised query, the area and the device of a line with tabs between
them; `GetUnionResults` takes them apart again and picks the city out of the area. -/
namespace CommonTools.Index.DlgLogIndex
open CommonTools.Lib CommonTools.Gary CommonIndex
open IndexDa (stringTrim nulFree_stringTrim)

/-! ## `dlg_log_index.cpp` -/

/-- What the source takes from elsewhere: the conversion to wide characters, the words of a
query as they stand in `buf`, and the two conversions of a weight. -/
structure LogTools (W : Type) where
  dbc2gchar : Bytes → Option Bytes
  graph : Bytes → List Bytes
  float : Int → W
  int : W → Int

def graphSegment {W : Type} (tools : LogTools W) (query : Bytes) : List Bytes :=
  if query.length < 2 ∨ query.length > 100 then [] else (tools.graph query).map cstr

theorem nulFree_graphSegment {W : Type} (tools : LogTools W) (query : Bytes) :
    ∀ word ∈ graphSegment tools query, NulFree word := by
  intro word h
  unfold graphSegment at h
  split at h
  · exact absurd h List.not_mem_nil
  · obtain ⟨buf, -, rfl⟩ := List.mem_map.mp h
    exact nulFree_cstr buf

def tab : Bytes := [9]

def comma : Bytes := [44]

/-- What one line of the file adds to the index, if anything; `line` is the buffer of `fgets`. -/
def makeIndexLine {W : Type} (tools : LogTools W) (line : Bytes) :
    Option (AddCall (DlgDocType W) DlgInvType) :=
  match stringSplit (stringTrim (cstr line)) tab with
  | some [device, area, query, num] =>
    match tools.dbc2gchar query with
    | none => none
    | some dest =>
      let seg_parts := graphSegment tools (cstr dest)
      let dlg_name := seg_parts.flatten
      let line_str := dlg_name ++ tab ++ area ++ tab ++ device
      if seg_parts.length > 0 then
        some {
          key_vect := seg_parts
          inv_vect := seg_parts.map fun part => ⟨0, BitVec.ofNat 32 part.length, 0, 0⟩
          doc_node := ⟨0, tools.float (atoi num)⟩
          doc_text := cstr line_str
          same_length := by simp
          keys_nulFree := nulFree_graphSegment tools (cstr dest)
          text_nulFree := nulFree_cstr line_str }
      else none
  | _ => none

/-- The lines of the file, one after the other. -/
def makeIndex {W : Type} [Pod W] (tools : LogTools W) (ix : DlgIndex W hashBasic)
    (lines : List Bytes) : Option (DlgIndex W hashBasic) :=
  ix.addAll (lines.filterMap (makeIndexLine tools))

structure DlgLogResult where
  query : Bytes
  area : Bytes
  city : Bytes
  device : Bytes
  weight : Int
deriving DecidableEq

/-- The city among the parts of an area. -/
def pickCity (area_parts : List Bytes) : Option Bytes :=
  if area_parts.length = 1 then area_parts[0]? else area_parts[1]?

/-- A text of the index taken apart: `none` when a part is used that is not there, `some none`
for a text that has not three parts. -/
def decodeText (text : Bytes) (weight : Int) : Option (Option DlgLogResult) := do
  match ← stringSplit text tab with
  | [query, area, device] =>
    let area_parts ← stringSplit area comma
    let city ← pickCity area_parts
    some (some ⟨query, area, city, device, weight⟩)
  | _ => some none

/-- `"unknown"`. -/
def unknown : Bytes := [117, 110, 107, 110, 111, 119, 110]

/-- `"null"`. -/
def null : Bytes := [110, 117, 108, 108]

/-- The end of a round: a text without three parts and an unknown city are left out. -/
def pushResult (log_docs : List DlgLogResult) : Option DlgLogResult → List DlgLogResult
  | none => log_docs
  | some log_result =>
    if log_result.city ≠ unknown ∧ log_result.city ≠ null then log_docs ++ [log_result]
    else log_docs

/-- One round of the loop over the documents. -/
def logRound {W : Type} [Pod W] (tools : LogTools W) (ix : DlgIndex W hashBasic)
    (log_docs : List DlgLogResult) (doc : Int) : Option (List DlgLogResult) := do
  let text ← ix.getDocText doc
  let node ← at? (ix.m_doc_buf.getD []) doc
  some (pushResult log_docs (← decodeText text (tools.int node.weight)))

/-- `GetUnionResults` with `log_docs`, behind the search for the documents. `sort` is `std::sort`
with the weights falling. -/
def getUnionResults {W : Type} [Pod W] (tools : LogTools W)
    (sort : List DlgLogResult → List DlgLogResult) (ix : DlgIndex W hashBasic) (docs : List Int)
    (log_docs : List DlgLogResult) : Option (List DlgLogResult) :=
  (docs.foldlM (logRound tools ix) log_docs).map sort

/-! ## The parts of a text -/

/-- A part that `StringSplit` returns is not empty, does not hold the separator and stands in the
text. -/
theorem of_mem_stringSplit {s part : Bytes} {x : UInt8} {parts : List Bytes}
    (h : stringSplit s [x] = some parts) (hpart : part ∈ parts) :
    (part ≠ [] ∧ x ∉ part) ∧ part <:+: s := by
  have hpieces := (stringSplit_eq_some_iff (by simp) (by simp)).mp h
  exact ⟨hpieces.apart part hpart, hpieces.isInfix part hpart⟩

/-- Three texts without tabs are found again. -/
theorem stringSplit_joined {a b c : Bytes} (ha : a ≠ [] ∧ (9 : UInt8) ∉ a)
    (hb : b ≠ [] ∧ (9 : UInt8) ∉ b) (hc : c ≠ [] ∧ (9 : UInt8) ∉ c) :
    stringSplit (a ++ tab ++ b ++ tab ++ c) tab = some [a, b, c] := by
  have hsplit : (a ++ 9 :: (b ++ 9 :: c)).splitOn 9 = [a, b, c] := by
    rw [List.splitOn_append_cons_self_of_not_mem ha.2,
      List.splitOn_append_cons_self_of_not_mem hb.2, List.splitOn_eq_singleton hc.2]
  rw [tab, stringSplit_byte]
  simp [hsplit, ha.1, hb.1, hc.1]

/-- The city is a part of the area, if the area has anything but commas. -/
theorem pickCity_iff {area : Bytes} {area_parts : List Bytes}
    (hparts : stringSplit area comma = some area_parts) :
    (∃ city, pickCity area_parts = some city ∧ city ∈ area.splitOn 44) ↔ ∃ b ∈ area, b ≠ 44 := by
  constructor
  · intro h
    obtain ⟨city, hcity, -⟩ := h
    by_contra hcommas
    have hnil : area_parts = [] := by
      rw [List.eq_nil_iff_forall_not_mem]
      intro part hpart
      obtain ⟨⟨hne, hno⟩, hin⟩ := of_mem_stringSplit hparts hpart
      obtain ⟨b, hb⟩ := List.exists_mem_of_ne_nil part hne
      have hcomma : b = 44 := by
        by_contra hb44
        exact hcommas ⟨b, hin.subset hb, hb44⟩
      exact hno (hcomma ▸ hb)
    rw [hnil] at hcity
    simp [pickCity] at hcity
  · intro h
    obtain ⟨b, hb, hne⟩ := h
    obtain ⟨part, hpart, hin⟩ := exists_mem_splitOn hne area hb
    have hmem : part ∈ (area.splitOn 44).filter (· ≠ []) := by
      simp [hpart, List.ne_nil_of_mem hin]
    rw [comma, stringSplit_byte, Option.some_inj] at hparts
    rw [hparts] at hmem
    have hpos := List.length_pos_of_mem hmem
    have hcity : ∀ city ∈ area_parts, city ∈ area.splitOn 44 := by
      intro city hin
      rw [← hparts] at hin
      exact List.mem_of_mem_filter hin
    by_cases hone : area_parts.length = 1
    · exact ⟨area_parts[0], by simp [pickCity, hone], hcity _ (List.getElem_mem _)⟩
    · have htwo : 1 < area_parts.length := by omega
      exact ⟨area_parts[1], by simp [pickCity, hone, htwo], hcity _ (List.getElem_mem htwo)⟩

/-! ## A line and its text -/

section
variable {W : Type} {tools : LogTools W} {line device area query num : Bytes}
  {call : AddCall (DlgDocType W) DlgInvType}

theorem makeIndexLine_key_vect (hadd : makeIndexLine tools line = some call) :
    call.key_vect ≠ [] := by
  unfold makeIndexLine at hadd
  split at hadd
  · split at hadd
    · cases hadd
    · dsimp only at hadd
      split at hadd
      · rename_i hpos
        obtain rfl := Option.some.inj hadd
        exact List.length_pos_iff.mp hpos
      · cases hadd
  · cases hadd

theorem makeIndexLine_doc_text
    (hparts : stringSplit (stringTrim (cstr line)) tab = some [device, area, query, num])
    (hadd : makeIndexLine tools line = some call) :
    call.doc_text = cstr (call.key_vect.flatten ++ tab ++ area ++ tab ++ device) := by
  rw [makeIndexLine, hparts] at hadd
  dsimp only at hadd
  cases hdest : tools.dbc2gchar query with
  | none => simp [hdest] at hadd
  | some dest =>
    rw [hdest] at hadd
    dsimp only at hadd
    split at hadd
    · obtain rfl := Option.some.inj hadd
      rfl
    · cases hadd

/-- The text of a line holds its parts as they are. -/
theorem makeIndexLine_text
    (hparts : stringSplit (stringTrim (cstr line)) tab = some [device, area, query, num])
    (hadd : makeIndexLine tools line = some call) :
    call.doc_text = call.key_vect.flatten ++ tab ++ area ++ tab ++ device := by
  have hfree : ∀ part ∈ [device, area, query, num], NulFree part := by
    intro part hpart
    have hsub := (of_mem_stringSplit hparts hpart).2
    exact fun b hb => nulFree_stringTrim (nulFree_cstr line) b (hsub.subset hb)
  have hname : NulFree call.key_vect.flatten := by
    intro b hb
    obtain ⟨word, hword, hin⟩ := List.mem_flatten.mp hb
    exact call.keys_nulFree word hword b hin
  have htab : NulFree tab := by simp [tab, NulFree]
  rw [makeIndexLine_doc_text hparts hadd, cstr_eq_self]
  exact (((hname.append htab).append (hfree area (by simp))).append htab).append
    (hfree device (by simp))

/-- **The text of a line is taken apart into what was put together exactly when the area is not
of commas only.** -/
theorem decodeText_makeIndexLine_iff
    (hparts : stringSplit (stringTrim (cstr line)) tab = some [device, area, query, num])
    (hadd : makeIndexLine tools line = some call)
    (hwords : ∀ word ∈ call.key_vect, word ≠ [] ∧ (9 : UInt8) ∉ word) (weight : Int) :
    (∃ result, decodeText call.doc_text weight = some (some result) ∧
      result.query = call.key_vect.flatten ∧ result.area = area ∧ result.device = device ∧
      result.city ∈ area.splitOn 44) ↔ ∃ b ∈ area, b ≠ 44 := by
  have hname : call.key_vect.flatten ≠ [] ∧ (9 : UInt8) ∉ call.key_vect.flatten := by
    constructor
    · obtain ⟨word, words, hcons⟩ := List.exists_cons_of_ne_nil (makeIndexLine_key_vect hadd)
      have hne := (hwords word (by rw [hcons]; exact List.mem_cons_self)).1
      rw [hcons, List.flatten_cons]
      exact List.append_ne_nil_of_left_ne_nil hne _
    · intro hin
      obtain ⟨word, hword, hb⟩ := List.mem_flatten.mp hin
      exact (hwords word hword).2 hb
  obtain ⟨area_parts, hsplit⟩ : ∃ area_parts, stringSplit area comma = some area_parts :=
    ⟨_, stringSplit_byte area 44⟩
  rw [makeIndexLine_text hparts hadd, decodeText, stringSplit_joined hname
    (of_mem_stringSplit hparts (by simp)).1 (of_mem_stringSplit hparts (by simp)).1,
    ← pickCity_iff hsplit]
  simp only [Option.bind_eq_bind, Option.bind_some, hsplit]
  constructor
  · intro h
    obtain ⟨result, hresult, -, -, -, hcity⟩ := h
    cases hpick : pickCity area_parts with
    | none => simp [hpick] at hresult
    | some city =>
      rw [hpick, Option.bind_some, Option.some_inj, Option.some_inj] at hresult
      subst hresult
      exact ⟨city, rfl, hcity⟩
  · intro h
    obtain ⟨city, hpick, hcity⟩ := h
    exact ⟨⟨_, area, city, device, weight⟩, by rw [hpick]; rfl, rfl, rfl, rfl, hcity⟩

end

/-- A query of one wide character, which is one word. -/
def oneWord : LogTools (BitVec 32) :=
  ⟨some, fun query => [query], fun weight => BitVec.ofInt 32 weight, BitVec.toInt⟩

def lineCall : AddCall (DlgDocType (BitVec 32)) DlgInvType :=
  ⟨[[214, 208]], [⟨0, 2, 0, 0⟩], ⟨0, 1⟩, [214, 208, 9, 97, 44, 98, 9, 112], rfl, by simp [NulFree],
    by simp [NulFree]⟩

theorem decodeText_makeIndexLine_iff_two :
    (∃ result, decodeText lineCall.doc_text 1 = some (some result) ∧
      result.query = lineCall.key_vect.flatten ∧ result.area = [97, 44, 98] ∧
      result.device = [112] ∧ result.city ∈ List.splitOn 44 [97, 44, 98]) ↔
        ∃ b ∈ ([97, 44, 98] : Bytes), b ≠ 44 :=
  @decodeText_makeIndexLine_iff _ oneWord [112, 9, 97, 44, 98, 9, 214, 208, 9, 49, 10] [112]
    [97, 44, 98] [214, 208] [49] lineCall rfl rfl (by simp [lineCall]) 1

/-- A line whose area is a comma: the part behind the comma is taken, and there is none. -/
theorem decodeText_comma :
    ∃ call, makeIndexLine oneWord [112, 9, 44, 9, 214, 208, 9, 49, 10] = some call ∧
      call.key_vect = [[214, 208]] ∧ stringSplit [44] comma = some [] ∧
      decodeText call.doc_text 1 = none :=
  ⟨_, rfl, rfl, rfl, rfl⟩

/-! ## The index of a file -/

section
variable {W : Type} [Pod W] {tools : LogTools W} {ix : DlgIndex W hashBasic}
  {adds : List (AddCall (DlgDocType W) DlgInvType)}
  {call : AddCall (DlgDocType W) DlgInvType}

omit [Pod W] in
/-- The postings of every call are among those of its words. -/
theorem mem_postings_of_call {word : Bytes} {inv : DlgInvType} :
    ∀ {id : Nat} {adds : List (AddCall (DlgDocType W) DlgInvType)} {k : Nat},
      adds[k]? = some call → inv ∈ call.postings (id + k) word → inv ∈ postings id adds word
  | _, [], _, hcall, _ => by simp at hcall
  | id, c :: rest, 0, hcall, hinv => by
    obtain rfl := Option.some.inj hcall
    exact List.mem_append_left _ hinv
  | id, c :: rest, k + 1, hcall, hinv => by
    refine List.mem_append_right _ (mem_postings_of_call (k := k) hcall ?_)
    rwa [Nat.add_assoc, Nat.add_comm 1]

theorem getDocText_of_answers (h : ix.Answers adds) (hlen : adds.length < 2 ^ 31) {id : Nat}
    (hcall : adds[id]? = some call) (hkeys : call.key_vect ≠ []) :
    ix.getDocText id = some call.doc_text := by
  obtain ⟨word, words, hcons⟩ := List.exists_cons_of_ne_nil hkeys
  have hid : id < 2 ^ 31 := (List.getElem?_eq_some_iff.mp hcall).1.trans hlen
  have hword : call.postings id word ≠ [] := by
    rw [Ne, AddCall.postings_eq_nil, hcons]
    simp
  obtain ⟨inv, hinv⟩ := List.exists_mem_of_ne_nil _ hword
  obtain ⟨id', call', hcall', -, hdoc, htext⟩ :=
    h.call word inv (mem_postings_of_call hcall (by rwa [Nat.zero_add]))
  have hdocId := AddCall.docId_of_mem hinv hid
  obtain rfl : id' = id := by omega
  rw [hcall', Option.some_inj] at hcall
  rw [← hcall, ← hdocId]
  exact htext

variable (tools) in
/-- A round for a document takes its text apart. -/
theorem logRound_of_answers (h : ix.Answers adds) (hlen : adds.length < 2 ^ 31) {id : Nat}
    (hcall : adds[id]? = some call) (hkeys : call.key_vect ≠ []) (log_docs : List DlgLogResult) :
    ∃ weight, logRound tools ix log_docs id =
      (decodeText call.doc_text weight).map (pushResult log_docs) := by
  have htext := getDocText_of_answers h hlen hcall hkeys
  cases hnode : at? (ix.m_doc_buf.getD []) id with
  | none => simp [getDocText, hnode] at htext
  | some node =>
    refine ⟨tools.int node.weight, ?_⟩
    rw [logRound, htext, hnode]
    simp only [Option.bind_eq_bind, Option.bind_some]
    cases decodeText call.doc_text (tools.int node.weight) <;> rfl

omit [Pod W] in
theorem decodeText_isSome_weight (text : Bytes) (weight weight' : Int) :
    (decodeText text weight).isSome ↔ (decodeText text weight').isSome := by
  unfold decodeText
  cases stringSplit text tab with
  | none => simp
  | some parts =>
    simp only [Option.bind_eq_bind, Option.bind_some]
    split
    · rename_i query area device
      cases stringSplit area comma with
      | none => simp
      | some area_parts => cases hcity : pickCity area_parts <;> simp [hcity]
    · simp

/-- The search has a result exactly when all texts can be taken apart. -/
theorem getUnionResults_isSome_iff (h : ix.Answers adds) (hlen : adds.length < 2 ^ 31)
    (sort : List DlgLogResult → List DlgLogResult) {docs : List Nat}
    (hdocs : ∀ id ∈ docs, ∃ call, adds[id]? = some call ∧ call.key_vect ≠ [])
    (log_docs : List DlgLogResult) :
    (getUnionResults tools sort ix (docs.map Int.ofNat) log_docs).isSome ↔
      ∀ id ∈ docs, ∀ call, adds[id]? = some call → (decodeText call.doc_text 0).isSome := by
  rw [getUnionResults, Option.isSome_map, List.foldlM_map]
  refine foldlM_isSome_iff log_docs fun id hid log_docs => ?_
  obtain ⟨call, hcall, hkeys⟩ := hdocs id hid
  obtain ⟨weight, hround⟩ := logRound_of_answers tools h hlen hcall hkeys log_docs
  have hround : logRound tools ix log_docs (Int.ofNat id) = _ := hround
  rw [hround, Option.isSome_map, decodeText_isSome_weight _ weight 0]
  constructor
  · intro hsome call' hcall'
    rw [hcall, Option.some_inj] at hcall'
    exact hcall' ▸ hsome
  · intro hall
    exact hall call hcall

/-- **The index of a file, saved and loaded, gives every line's text to be taken apart.** -/
theorem makeIndex_logRound [LE W] [LT W] [DecidableLE W] [DecidableLT W] (lines : List Bytes)
    (hsizes : Sizes (lines.filterMap (makeIndexLine tools))) :
    ∃ (ix : DlgIndex W hashBasic) (bytes : Bytes) (saved : DlgIndex W hashBasic),
      makeIndex tools empty lines = some ix ∧ ix.save false = some (bytes, saved) ∧
      ∀ junk (other : DlgIndex W hashBasic), ∃ loaded, other.load junk bytes = some (0, loaded) ∧
        ∀ (id : Nat) call, (lines.filterMap (makeIndexLine tools))[id]? = some call →
          ∀ log_docs, ∃ weight, logRound tools loaded log_docs id =
            (decodeText call.doc_text weight).map (pushResult log_docs) := by
  obtain ⟨ix, bytes, saved, hadd, hsave, hload⟩ := load_save_answers (N := DlgKeyType) _ hsizes
  refine ⟨ix, bytes, saved, hadd, hsave, fun junk other => ?_⟩
  obtain ⟨loaded, hloaded, hanswers⟩ := hload junk other
  refine ⟨loaded, hloaded, fun id call hcall log_docs => ?_⟩
  have hlen := (length_le_textsOf _).trans_lt hsizes.texts
  obtain ⟨line, -, hline⟩ := List.mem_filterMap.mp (List.mem_of_getElem? hcall)
  exact logRound_of_answers tools hanswers hlen hcall (makeIndexLine_key_vect hline) log_docs

end

end CommonTools.Index.DlgLogIndex
