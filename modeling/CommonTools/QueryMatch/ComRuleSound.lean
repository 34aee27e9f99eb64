import CommonTools.Lib.Writes
import CommonTools.QueryMatch.ComRule

/-! # Tilings

The rows that `BasePosComRule` stores are the ways to cover the query from left
to right: by words whose tag is asked for, and, with flag 1, by stretches where
no such word starts. -/
namespace CommonTools.QueryMatch
open CommonTools.Lib

/-! ## Rows -/

abbrev Segment := Bytes × Bytes

/-- What the recursion passes on: every part with `|` behind it. -/
def row (parts : List Bytes) : Bytes := parts.flatMap (· ++ [bar])

/-- The parts with `|` between them. -/
def joined (parts : List Bytes) : Bytes := [bar].intercalate parts

def mergeTagsFrom (tag : Bytes) : List Bytes → List Bytes
  | [] => [tag]
  | t :: ts =>
    if t = tag ∧ mergeable t = true then mergeTagsFrom t ts else tag :: mergeTagsFrom t ts

/-- Equal neighbours that contain `_show_` or `_patt_` become one tag. -/
def mergeTags : List Bytes → List Bytes
  | [] => []
  | t :: ts => mergeTagsFrom t ts

/-- The texts of tags that become one are joined. -/
def mergeTextsFrom (tag text : Bytes) : List Segment → List Bytes
  | [] => [text]
  | (t, x) :: rest =>
    if t = tag ∧ mergeable t = true then mergeTextsFrom t (text ++ x) rest
    else text :: mergeTextsFrom t x rest

def mergeTexts : List Segment → List Bytes
  | [] => []
  | (t, x) :: rest => mergeTextsFrom t x rest

/-- No part of the row has `|` in it. -/
def Barless (segs : List Segment) : Prop := ∀ s ∈ segs, bar ∉ s.1 ∧ bar ∉ s.2

theorem row_append (a b : List Bytes) : row (a ++ b) = row a ++ row b := List.flatMap_append

theorem row_concat (l : List Segment) (s : Segment) (f : Segment → Bytes) :
    row ((l ++ [s]).map f) = row (l.map f) ++ f s ++ [bar] := by
  rw [List.map_append, row_append, List.append_assoc]
  simp [row]

theorem joined_cons (x y : Bytes) (l : List Bytes) :
    joined (x :: y :: l) = x ++ [bar] ++ joined (y :: l) := by
  simp [joined, List.intercalate_cons_cons]

theorem row_cons_dropLast : ∀ (x : Bytes) (l : List Bytes),
    (row (x :: l)).dropLast = joined (x :: l)
  | x, [] => by simp [row, joined]
  | x, y :: l => by
    have hne : row (y :: l) ≠ [] := by simp [row]
    have hsplit : row (x :: y :: l) = x ++ [bar] ++ row (y :: l) := rfl
    rw [hsplit, List.dropLast_append_of_ne_nil hne, row_cons_dropLast y l, joined_cons]

theorem splitOn_joined {l : List Bytes} (hbar : ∀ x ∈ l, bar ∉ x) (hne : l ≠ []) :
    (joined l).splitOn bar = l := List.splitOn_intercalate bar hbar hne

section
variable {tag text : Bytes}

theorem mergeTagsFrom_ne_nil : ∀ {ts : List Bytes} {tag : Bytes},
    ∃ l t, mergeTagsFrom tag ts = t :: l := by
  intro ts
  induction ts with
  | nil =>
    intro tag
    exact ⟨[], tag, rfl⟩
  | cons t ts ih =>
    intro tag
    rw [mergeTagsFrom]
    split
    · exact ih
    · exact ⟨_, _, rfl⟩

theorem mergeTextsFrom_ne_nil : ∀ {rest : List Segment} {tag text : Bytes},
    ∃ l x, mergeTextsFrom tag text rest = x :: l
  | [], _, text => ⟨[], text, rfl⟩
  | (t, x) :: rest, tag, text => by
    rw [mergeTextsFrom]
    split
    · exact mergeTextsFrom_ne_nil
    · exact ⟨_, _, rfl⟩

/-- The texts are merged where the tags are. -/
theorem length_mergeTextsFrom : ∀ {rest : List Segment} {tag text : Bytes},
    (mergeTextsFrom tag text rest).length = (mergeTagsFrom tag (rest.map Prod.fst)).length
  | [], _, _ => rfl
  | (t, x) :: rest, tag, text => by
    rw [mergeTextsFrom, List.map_cons, mergeTagsFrom]
    split
    · exact length_mergeTextsFrom
    · rw [List.length_cons, List.length_cons, length_mergeTextsFrom]

theorem flatten_mergeTextsFrom : ∀ {rest : List Segment} {tag text : Bytes},
    (mergeTextsFrom tag text rest).flatten = text ++ (rest.map Prod.snd).flatten
  | [], _, _ => rfl
  | (t, x) :: rest, tag, text => by
    rw [mergeTextsFrom, List.map_cons, List.flatten_cons]
    split
    · rw [flatten_mergeTextsFrom, List.append_assoc]
    · rw [List.flatten_cons, flatten_mergeTextsFrom]

theorem mem_mergeTagsFrom : ∀ {ts : List Bytes} {tag t : Bytes},
    t ∈ mergeTagsFrom tag ts → t ∈ tag :: ts := by
  intro ts
  induction ts with
  | nil =>
    intro _ _ h
    exact h
  | cons t' ts ih =>
    intro tag t h
    rw [mergeTagsFrom] at h
    split at h
    · exact List.mem_cons_of_mem tag (ih h)
    · rcases List.mem_cons.mp h with rfl | h
      · exact List.mem_cons_self
      · exact List.mem_cons_of_mem tag (ih h)

/-- The loop over the parts builds the merged rows. -/
theorem mergeLoop_eq : ∀ (rest : List Segment) (tag text ruleTag patQuery : Bytes),
    mergeLoop tag (rest.map Prod.fst) (rest.map Prod.snd) (ruleTag ++ tag) (patQuery ++ text) =
      some (ruleTag ++ joined (mergeTagsFrom tag (rest.map Prod.fst)),
        patQuery ++ joined (mergeTextsFrom tag text rest))
  | [], tag, text, ruleTag, patQuery => by
    simp [mergeLoop, mergeTagsFrom, mergeTextsFrom, joined]
  | (t, x) :: rest, tag, text, ruleTag, patQuery => by
    rw [List.map_cons, List.map_cons, mergeLoop, mergeTagsFrom, mergeTextsFrom]
    by_cases h : t = tag ∧ mergeable t = true
    · rw [if_pos h, if_pos h, if_pos h, h.1, List.append_assoc]
      exact mergeLoop_eq rest tag (text ++ x) ruleTag patQuery
    · rw [if_neg h, if_neg h, if_neg h]
      have hrec := mergeLoop_eq rest t x (ruleTag ++ tag ++ [bar]) (patQuery ++ text ++ [bar])
      obtain ⟨lt, t', ht⟩ := @mergeTagsFrom_ne_nil (rest.map Prod.fst) t
      obtain ⟨lx, x', hx⟩ := @mergeTextsFrom_ne_nil rest t x
      rw [ht, hx] at hrec ⊢
      rw [hrec, joined_cons, joined_cons]
      simp only [List.append_assoc]

end

/-- The key and the value of a row. -/
def ruleKey (segs : List Segment) : Bytes := joined (mergeTags (segs.map Prod.fst))

def ruleValue (segs : List Segment) : Bytes := joined (mergeTexts segs)

theorem storeRule_eq {segs : List Segment} (h : Barless segs) (m : ComRuleMap) :
    storeRule (row (segs.map Prod.fst)) (row (segs.map Prod.snd)) m =
      some (Function.update m (ruleKey segs) (some (ruleValue segs))) := by
  cases segs with
  | nil => rfl
  | cons s rest =>
    obtain ⟨tag, text⟩ := s
    have htags : ((row (tag :: rest.map Prod.fst)).dropLast).splitOn bar =
        tag :: rest.map Prod.fst := by
      rw [row_cons_dropLast, splitOn_joined _ (List.cons_ne_nil _ _)]
      rw [← List.map_cons (f := Prod.fst) (a := (tag, text))]
      simp only [List.mem_map]
      rintro _ ⟨s, hs, rfl⟩
      exact (h s hs).1
    have htexts : ((row (text :: rest.map Prod.snd)).dropLast).splitOn bar =
        text :: rest.map Prod.snd := by
      rw [row_cons_dropLast, splitOn_joined _ (List.cons_ne_nil _ _)]
      rw [← List.map_cons (f := Prod.snd) (a := (tag, text))]
      simp only [List.mem_map]
      rintro _ ⟨s, hs, rfl⟩
      exact (h s hs).2
    have hmerge := mergeLoop_eq rest tag text [] []
    rw [storeRule, List.map_cons, List.map_cons, htags, htexts]
    dsimp only
    rw [List.nil_append, List.nil_append, List.nil_append, List.nil_append] at hmerge
    rw [hmerge]
    rfl

/-- An entry has as many parts in its key as in its value, and the parts of the
value are the texts of the row. -/
theorem splitOn_rule {segs : List Segment} (h : Barless segs) :
    ((ruleKey segs).splitOn bar).length = ((ruleValue segs).splitOn bar).length ∧
      ((ruleValue segs).splitOn bar).flatten = (segs.map Prod.snd).flatten := by
  cases segs with
  | nil => exact ⟨rfl, rfl⟩
  | cons s rest =>
    obtain ⟨tag, text⟩ := s
    obtain ⟨lt, t, ht⟩ := @mergeTagsFrom_ne_nil (rest.map Prod.fst) tag
    obtain ⟨lx, x, hx⟩ := @mergeTextsFrom_ne_nil rest tag text
    have htags : ∀ y ∈ mergeTagsFrom tag (rest.map Prod.fst), bar ∉ y := by
      intro y hy
      rcases List.mem_cons.mp (mem_mergeTagsFrom hy) with rfl | hy
      · exact (h _ List.mem_cons_self).1
      · obtain ⟨s, hs, rfl⟩ := List.mem_map.mp hy
        exact (h s (List.mem_cons_of_mem _ hs)).1
    have htexts : ∀ y ∈ mergeTextsFrom tag text rest, bar ∉ y := by
      intro y hy hb
      have hin : bar ∈ text ++ (rest.map Prod.snd).flatten := by
        rw [← @flatten_mergeTextsFrom rest tag text]
        exact List.mem_flatten.mpr ⟨y, hy, hb⟩
      rcases List.mem_append.mp hin with hb | hb
      · exact (h _ List.mem_cons_self).2 hb
      · obtain ⟨z, hz, hb⟩ := List.mem_flatten.mp hb
        obtain ⟨s, hs, rfl⟩ := List.mem_map.mp hz
        exact (h s (List.mem_cons_of_mem _ hs)).2 hb
    have htne : mergeTagsFrom tag (rest.map Prod.fst) ≠ [] := by
      rw [ht]
      exact List.cons_ne_nil _ _
    have hxne : mergeTextsFrom tag text rest ≠ [] := by
      rw [hx]
      exact List.cons_ne_nil _ _
    have hkey : (ruleKey ((tag, text) :: rest)).splitOn bar =
        mergeTagsFrom tag (rest.map Prod.fst) :=
      splitOn_joined htags htne
    have hvalue : (ruleValue ((tag, text) :: rest)).splitOn bar = mergeTextsFrom tag text rest :=
      splitOn_joined htexts hxne
    rw [hkey, hvalue, length_mergeTextsFrom, flatten_mergeTextsFrom]
    exact ⟨rfl, rfl⟩

/-! ## Covers -/

/-- The words of a query of two-byte characters: a word at character `i` starts
there and is what the query has up to its end. -/
structure Family (query : Bytes) (vetPosType : List PosType) : Prop where
  size : query.length = 2 * vetPosType.length
  barless : bar ∉ query
  tags : ∀ pos ∈ vetPosType, ∀ e ∈ pos.posTag, bar ∉ e.1
  node : ∀ {i : Nat} {pos : PosType}, vetPosType[i]? = some pos → ∀ e ∈ pos.posTag, ∀ nd ∈ e.2,
    nd.start = 2 * i ∧ 2 * i < nd.stop ∧ nd.stop ≤ 2 * vetPosType.length ∧
      nd.text = (query.take nd.stop).drop nd.start

/-- The words are made of whole characters. -/
def WholeWords (vetPosType : List PosType) : Prop :=
  ∀ pos ∈ vetPosType, ∀ e ∈ pos.posTag, ∀ nd ∈ e.2, nd.stop % 2 = 0

def selected (tag : Bytes) (flag : Nat) (strTmp : Bytes) : Bool :=
  startsWith strTmp tag || (flag == 0 && startsWith strTmp numberTag)

/-- The stretch without a word, under the tag `*`. -/
def gapSegment : Option Bytes → List Segment
  | none => []
  | some text => [([42], text)]

/-- The rows that cover the query from a character on; `gap` is the stretch in
front of it that has not been written yet. -/
inductive Cover (tag query : Bytes) (vetPosType : List PosType) (flag : Nat) :
    Nat → Option Bytes → List Segment → Prop
  | done {index : Nat} {gap : Option Bytes} : index = vetPosType.length →
    Cover tag query vetPosType flag index gap (gapSegment gap)
  | node {index : Nat} {gap : Option Bytes} {pos : PosType} {e : Bytes × List TagNode}
    {nd : TagNode} {rest : List Segment} :
    vetPosType[index]? = some pos → e ∈ pos.posTag → selected tag flag e.1 = true → nd ∈ e.2 →
    index < nd.stop / 2 → Cover tag query vetPosType flag (nd.stop / 2) none rest →
    Cover tag query vetPosType flag index gap (gapSegment gap ++ (e.1, nd.text) :: rest)
  | skip {index : Nat} {gap : Option Bytes} {pos : PosType} {rest : List Segment} :
    flag = 1 → vetPosType[index]? = some pos →
    (∀ e ∈ pos.posTag, startsWith e.1 tag = false) →
    Cover tag query vetPosType flag (index + 1)
      (some (gap.getD [] ++ (query.drop (index * 2)).take 2)) rest →
    Cover tag query vetPosType flag index gap rest

section
variable {tag query : Bytes} {vetPosType : List PosType} {flag index : Nat}

theorem gapSegment_flatten (gap : Option Bytes) :
    ((gapSegment gap).map Prod.snd).flatten = gap.getD [] := by
  cases gap with
  | none => rfl
  | some text => simp [gapSegment]

/-- The texts of a cover are the stretch and the rest of the query. -/
theorem Cover.flatten (hf : Family query vetPosType) (hw : WholeWords vetPosType)
    {gap : Option Bytes} {rest : List Segment} (h : Cover tag query vetPosType flag index gap rest) :
    (rest.map Prod.snd).flatten = gap.getD [] ++ query.drop (2 * index) := by
  induction h with
  | done hi =>
    rw [gapSegment_flatten, hi, ← hf.size, List.drop_length, List.append_nil]
  | @node index gap pos e nd rest hpos he hsel hnd hgo hrest ih =>
    obtain ⟨hstart, hlt, hle, htext⟩ := hf.node hpos e he nd hnd
    have heven := hw pos (List.mem_of_getElem? hpos) e he nd hnd
    have hstop : 2 * (nd.stop / 2) = nd.stop := by omega
    have hsplit : nd.text ++ query.drop nd.stop = query.drop (2 * index) := by
      have hlen : 2 * index ≤ (query.take nd.stop).length := by
        rw [List.length_take, hf.size]
        omega
      rw [htext, hstart, ← List.drop_append_of_le_length hlen, List.take_append_drop]
    rw [hstop] at ih
    rw [List.map_append, List.flatten_append, gapSegment_flatten, List.map_cons, List.flatten_cons,
      ih, Option.getD_none, List.nil_append, hsplit]
  | @skip index gap pos rest hflag hpos hnone hrest ih =>
    have hsplit : (query.drop (index * 2)).take 2 ++ query.drop (2 * (index + 1)) =
        query.drop (2 * index) := by
      have hadd : 2 * (index + 1) = index * 2 + 2 := by omega
      rw [hadd, ← List.drop_drop, List.take_append_drop, Nat.mul_comm]
    rw [ih, Option.getD_some, List.append_assoc, hsplit]

theorem barless_append {a b : List Segment} : Barless (a ++ b) ↔ Barless a ∧ Barless b :=
  List.forall_mem_append

theorem barless_gapSegment {gap : Option Bytes} (h : bar ∉ gap.getD []) :
    Barless (gapSegment gap) := by
  cases gap with
  | none => exact fun s hs => nomatch hs
  | some text =>
    intro s hs
    rw [List.mem_singleton.mp hs]
    exact ⟨by show bar ∉ [42]; decide, h⟩

theorem Family.barless_node (hf : Family query vetPosType) {pos : PosType}
    (hpos : vetPosType[index]? = some pos) {e : Bytes × List TagNode} (he : e ∈ pos.posTag)
    {nd : TagNode} (hnd : nd ∈ e.2) : Barless [(e.1, nd.text)] := by
  intro s hs
  rw [List.mem_singleton.mp hs]
  refine ⟨hf.tags pos (List.mem_of_getElem? hpos) e he, fun hb => ?_⟩
  obtain ⟨-, -, -, htext⟩ := hf.node hpos e he nd hnd
  rw [show ((e.1, nd.text) : Segment).2 = nd.text from rfl, htext] at hb
  exact hf.barless (List.mem_of_mem_take (List.mem_of_mem_drop hb))

/-- The stretch with one more character has no `|` in it. -/
theorem Family.barless_gap (hf : Family query vetPosType) {gap : Option Bytes}
    (hgap : bar ∉ gap.getD []) : bar ∉ gap.getD [] ++ (query.drop (index * 2)).take 2 := fun hb =>
  (List.mem_append.mp hb).elim hgap fun hb =>
    hf.barless (List.mem_of_mem_drop (List.mem_of_mem_take hb))

theorem Cover.barless (hf : Family query vetPosType) {gap : Option Bytes} {rest : List Segment}
    (h : Cover tag query vetPosType flag index gap rest) (hgap : bar ∉ gap.getD []) :
    Barless rest := by
  induction h with
  | done _ => exact barless_gapSegment hgap
  | node hpos he _ hnd _ _ ih =>
    rw [List.append_cons]
    exact barless_append.mpr ⟨barless_append.mpr ⟨barless_gapSegment hgap,
      hf.barless_node hpos he hnd⟩, ih List.not_mem_nil⟩
  | skip _ _ _ _ ih => exact ih (hf.barless_gap hgap)

/-! ## The recursion -/

/-- The loops over the words of one character call for every word that is asked
for and goes on. -/
theorem writes_nodes {posTag : List (Bytes × List TagNode)} {sel : Bytes → Bool}
    {call : Bytes → TagNode → ComRuleMap → Option ComRuleMap}
    {W : Bytes → TagNode → Bytes → Bytes → Prop}
    (hcall : ∀ e ∈ posTag, sel e.1 = true → ∀ nd ∈ e.2, index < nd.stop / 2 → ∀ m,
      ∃ m', call e.1 nd m = some m' ∧ Writes (W e.1 nd) m m') (m : ComRuleMap) :
    ∃ m', posTag.foldlM (fun m (strTmp, vecTN) =>
        if !sel strTmp then some m
        else vecTN.foldlM (fun m node =>
          if node.stop / 2 ≤ index then some m else call strTmp node m) m) m = some m' ∧
      Writes (fun k v => ∃ e ∈ posTag, sel e.1 = true ∧ ∃ nd ∈ e.2, index < nd.stop / 2 ∧
        W e.1 nd k v) m m' := by
  refine Writes.foldlM fun e he m => ?_
  obtain ⟨strTmp, vecTN⟩ := e
  dsimp only
  cases hsel : sel strTmp with
  | false => exact ⟨m, rfl, (Writes.refl m).congr fun _ _ => by simp⟩
  | true =>
    have hloop : ∃ m', vecTN.foldlM (fun m node =>
        if node.stop / 2 ≤ index then some m else call strTmp node m) m = some m' ∧
        Writes (fun k v => ∃ nd ∈ vecTN, index < nd.stop / 2 ∧ W strTmp nd k v) m m' := by
      refine Writes.foldlM fun nd hnd m => ?_
      by_cases hle : nd.stop / 2 ≤ index
      · rw [if_pos hle]
        exact ⟨m, rfl, (Writes.refl m).congr fun _ _ => by simp [Nat.not_lt.mpr hle]⟩
      · rw [if_neg hle]
        obtain ⟨m', hm', hw⟩ := hcall _ he hsel nd hnd (Nat.lt_of_not_le hle) m
        exact ⟨m', hm', hw.congr fun _ _ => by simp [Nat.lt_of_not_le hle]⟩
    obtain ⟨m', hm', hw⟩ := hloop
    exact ⟨m', hm', hw.congr fun _ _ => by simp⟩

/-- What a call writes: the covers from its character on, behind the row so far. -/
def coverWrites (tag query : Bytes) (vetPosType : List PosType) (flag index : Nat)
    (gap : Option Bytes) (segs : List Segment) (k v : Bytes) : Prop :=
  ∃ rest, Cover tag query vetPosType flag index gap rest ∧ k = ruleKey (segs ++ rest) ∧
    v = ruleValue (segs ++ rest)

/-- With a word that is asked for at the character, the covers go on with the
words there. -/
theorem coverWrites_nodes {pos : PosType}
    (hpos : vetPosType[index]? = some pos) {gap : Option Bytes} {segs : List Segment}
    (hskip : flag = 1 → ∃ e ∈ pos.posTag, startsWith e.1 tag = true) (k v : Bytes) :
    (∃ e ∈ pos.posTag, selected tag flag e.1 = true ∧ ∃ nd ∈ e.2, index < nd.stop / 2 ∧
      coverWrites tag query vetPosType flag (nd.stop / 2) none
        (segs ++ gapSegment gap ++ [(e.1, nd.text)]) k v) ↔
      coverWrites tag query vetPosType flag index gap segs k v := by
  constructor
  · rintro ⟨e, he, hsel, nd, hnd, hgo, rest, hrest, hk, hv⟩
    refine ⟨_, .node hpos he hsel hnd hgo hrest, ?_, ?_⟩
    · rw [hk]
      simp only [List.append_assoc, List.singleton_append]
    · rw [hv]
      simp only [List.append_assoc, List.singleton_append]
  · rintro ⟨rest, hrest, hk, hv⟩
    cases hrest with
    | done hi =>
      rw [hi, List.getElem?_length] at hpos
      cases hpos
    | @node _ _ pos' e nd rest hpos' he hsel hnd hgo hrest =>
      rw [hpos] at hpos'
      cases hpos'
      refine ⟨e, he, hsel, nd, hnd, hgo, rest, hrest, ?_, ?_⟩
      · rw [hk]
        simp only [List.append_assoc, List.singleton_append]
      · rw [hv]
        simp only [List.append_assoc, List.singleton_append]
    | skip hflag hpos' hnone _ =>
      rw [hpos] at hpos'
      cases hpos'
      obtain ⟨e, he, hstart⟩ := hskip hflag
      rw [hnone e he] at hstart
      cases hstart

theorem coverWrites_end (hi : index = vetPosType.length) {gap : Option Bytes}
    {segs : List Segment} (k v : Bytes) :
    (k = ruleKey (segs ++ gapSegment gap) ∧ v = ruleValue (segs ++ gapSegment gap)) ↔
      coverWrites tag query vetPosType flag index gap segs k v := by
  constructor
  · rintro ⟨hk, hv⟩
    exact ⟨_, .done hi, hk, hv⟩
  · rintro ⟨rest, hrest, hk, hv⟩
    cases hrest with
    | done _ => exact ⟨hk, hv⟩
    | node hpos _ _ _ _ _ =>
      rw [hi, List.getElem?_length] at hpos
      cases hpos
    | skip _ hpos _ _ =>
      rw [hi, List.getElem?_length] at hpos
      cases hpos

/-- Without such a word, flag 1 puts the character into the stretch. -/
theorem coverWrites_skip (h1 : flag = 1) {pos : PosType} (hpos : vetPosType[index]? = some pos)
    (hnone : ∀ e ∈ pos.posTag, startsWith e.1 tag = false) {gap : Option Bytes}
    {segs : List Segment} (k v : Bytes) :
    coverWrites tag query vetPosType flag (index + 1)
        (some (gap.getD [] ++ (query.drop (index * 2)).take 2)) segs k v ↔
      coverWrites tag query vetPosType flag index gap segs k v := by
  constructor
  · rintro ⟨rest, hrest, hk, hv⟩
    exact ⟨rest, .skip h1 hpos hnone hrest, hk, hv⟩
  · rintro ⟨rest, hrest, hk, hv⟩
    cases hrest with
    | done hi =>
      rw [hi, List.getElem?_length] at hpos
      cases hpos
    | node hpos' he hsel _ _ _ =>
      rw [hpos] at hpos'
      cases hpos'
      simp [selected, h1, hnone _ he] at hsel
    | skip _ _ _ hrest => exact ⟨rest, hrest, hk, hv⟩

/-- The strings of a row behind which the stretch is closed. -/
theorem row_closed_tags (segs : List Segment) (gap : Option Bytes) :
    row ((segs ++ gapSegment gap).map Prod.fst) =
      if gap.isSome then row (segs.map Prod.fst) ++ [42, bar] else row (segs.map Prod.fst) := by
  cases gap with
  | none =>
    rw [gapSegment, List.append_nil]
    rfl
  | some text =>
    rw [gapSegment, row_concat, List.append_assoc (row (segs.map Prod.fst))]
    rfl

theorem row_closed_texts (segs : List Segment) (gap : Option Bytes) :
    row ((segs ++ gapSegment gap).map Prod.snd) =
      if gap.isSome then row (segs.map Prod.snd) ++ gap.getD [] ++ [bar]
      else row (segs.map Prod.snd) ++ gap.getD [] := by
  cases gap with
  | none =>
    rw [gapSegment, List.append_nil, Option.getD_none, List.append_nil]
    rfl
  | some text =>
    rw [gapSegment, row_concat]
    rfl

/-- A call with so much depth left returns, and writes the covers from its
character on. -/
def CallWrites (tag query : Bytes) (vetPosType : List PosType) (flag depth : Nat) : Prop :=
  ∀ (index : Nat) (gap : Option Bytes) (segs : List Segment) (m : ComRuleMap),
    vetPosType.length < depth + index → index ≤ vetPosType.length → Barless segs →
    bar ∉ gap.getD [] → (flag = 0 → gap = none) →
    ∃ m', comRule tag query vetPosType flag depth index gap.isSome (row (segs.map Prod.fst))
        (row (segs.map Prod.snd) ++ gap.getD []) m = some m' ∧
      Writes (coverWrites tag query vetPosType flag index gap segs) m m'

section
variable {depth : Nat} {gap : Option Bytes} {segs : List Segment}

/-- One word further, behind the closed row. -/
theorem CallWrites.node (h : CallWrites tag query vetPosType flag depth)
    (hf : Family query vetPosType) (hdepth : vetPosType.length < depth + 1 + index)
    (hclosed : Barless (segs ++ gapSegment gap)) {pos : PosType}
    (hpos : vetPosType[index]? = some pos) {e : Bytes × List TagNode} (he : e ∈ pos.posTag)
    {nd : TagNode} (hnd : nd ∈ e.2) (hlt : index < nd.stop / 2) (m : ComRuleMap) :
    ∃ m', comRule tag query vetPosType flag depth (nd.stop / 2) false
        (row ((segs ++ gapSegment gap).map Prod.fst) ++ e.1 ++ [bar])
        (row ((segs ++ gapSegment gap).map Prod.snd) ++ nd.text ++ [bar]) m = some m' ∧
      Writes (coverWrites tag query vetPosType flag (nd.stop / 2) none
        (segs ++ gapSegment gap ++ [(e.1, nd.text)])) m m' := by
  have hrange := (hf.node hpos e he nd hnd).2
  have hrec := h (nd.stop / 2) none (segs ++ gapSegment gap ++ [(e.1, nd.text)]) m (by omega)
    (by omega) (barless_append.mpr ⟨hclosed, hf.barless_node hpos he hnd⟩) (by simp) (fun _ => rfl)
  rw [row_concat, row_concat] at hrec
  rwa [Option.getD_none, List.append_nil] at hrec

/-- The loops over the words of the character. -/
theorem CallWrites.words (h : CallWrites tag query vetPosType flag depth)
    (hf : Family query vetPosType) (hdepth : vetPosType.length < depth + 1 + index)
    (hclosed : Barless (segs ++ gapSegment gap)) {pos : PosType}
    (hpos : vetPosType[index]? = some pos)
    (hskip : flag = 1 → ∃ e ∈ pos.posTag, startsWith e.1 tag = true) (m : ComRuleMap) :
    ∃ m', pos.posTag.foldlM (fun m (strTmp, vecTN) =>
        if !selected tag flag strTmp then some m
        else vecTN.foldlM (fun m node =>
          if node.stop / 2 ≤ index then some m
          else comRule tag query vetPosType flag depth (node.stop / 2) false
            (row ((segs ++ gapSegment gap).map Prod.fst) ++ strTmp ++ [bar])
            (row ((segs ++ gapSegment gap).map Prod.snd) ++ node.text ++ [bar]) m) m) m =
        some m' ∧
      Writes (coverWrites tag query vetPosType flag index gap segs) m m' := by
  obtain ⟨m', hm', hw⟩ := @writes_nodes index pos.posTag (selected tag flag)
    (fun strTmp node => comRule tag query vetPosType flag depth (node.stop / 2) false
      (row ((segs ++ gapSegment gap).map Prod.fst) ++ strTmp ++ [bar])
      (row ((segs ++ gapSegment gap).map Prod.snd) ++ node.text ++ [bar]))
    (fun strTmp node => coverWrites tag query vetPosType flag (node.stop / 2) none
      (segs ++ gapSegment gap ++ [(strTmp, node.text)]))
    (fun e he _ nd hnd hlt m => h.node hf hdepth hclosed hpos he hnd hlt m) m
  exact ⟨m', hm', hw.congr (coverWrites_nodes hpos hskip)⟩

end

theorem CallWrites.succ (hf : Family query vetPosType) (h01 : flag = 0 ∨ flag = 1) {depth : Nat}
    (h : CallWrites tag query vetPosType flag depth) :
    CallWrites tag query vetPosType flag (depth + 1) := by
  intro index gap segs m hdepth hindex hsegs hgap hflag
  have hclosed : Barless (segs ++ gapSegment gap) :=
    barless_append.mpr ⟨hsegs, barless_gapSegment hgap⟩
  rw [comRule]
  by_cases hi : index = vetPosType.length
  · have hstore := storeRule_eq hclosed m
    rw [row_closed_tags, row_closed_texts] at hstore
    refine ⟨_, ?_, (Writes.single m _ _).congr (coverWrites_end hi)⟩
    rw [if_pos hi]
    cases gap with
    | none => exact hstore
    | some text => exact hstore
  · rw [if_neg hi]
    obtain ⟨pos, hpos⟩ : ∃ pos, vetPosType[index]? = some pos :=
      ⟨_, List.getElem?_eq_getElem (Nat.lt_of_le_of_ne hindex hi)⟩
    rw [hpos, Option.bind_some, Option.bind_some]
    by_cases h0 : flag = 0
    · have hsel : ∀ t, (!startsWith t tag && !startsWith t numberTag) = !selected tag flag t := by
        intro t
        simp [selected, h0]
      have hwords := h.words hf (by omega) hclosed hpos (fun h1 => by omega) m
      rw [hflag h0, gapSegment, List.append_nil] at hwords
      rw [if_pos h0, hflag h0, Option.getD_none, List.append_nil]
      simp only [hsel]
      exact hwords
    · have h1 : flag = 1 := h01.resolve_left h0
      have hsel : ∀ t, startsWith t tag = selected tag flag t := by
        intro t
        simp [selected, h1]
      rw [if_neg h0, if_pos h1]
      by_cases hany : (pos.posTag.any fun (strTmp, _) => startsWith strTmp tag) = true
      · have hwords := h.words hf (by omega) hclosed hpos (fun _ => List.any_eq_true.mp hany) m
        rw [if_pos hany]
        rw [row_closed_tags, row_closed_texts] at hwords
        simp only [hsel]
        cases gap with
        | none => exact hwords
        | some text => exact hwords
      · have hnone : ∀ e ∈ pos.posTag, startsWith e.1 tag = false := by
          intro e he
          by_contra hstart
          exact hany (List.any_eq_true.mpr ⟨e, he, Bool.not_eq_false _ ▸ hstart⟩)
        have hlen := hf.size
        obtain ⟨m', hm', hw⟩ := h (index + 1)
          (some (gap.getD [] ++ (query.drop (index * 2)).take 2)) segs m (by omega) (by omega)
          hsegs (hf.barless_gap hgap) (fun h => absurd h h0)
        rw [Option.getD_some, ← List.append_assoc] at hm'
        rw [if_neg hany, if_neg (by omega)]
        exact ⟨m', hm', hw.congr (coverWrites_skip h1 hpos hnone)⟩

/-- **One call** returns, and writes the covers from its character on. -/
theorem comRule_writes (hf : Family query vetPosType) (h01 : flag = 0 ∨ flag = 1) :
    ∀ depth, CallWrites tag query vetPosType flag depth
  | 0 => fun index _ _ _ hdepth hindex => by omega
  | depth + 1 => (comRule_writes hf h01 depth).succ hf h01

/-! ## Tilings -/

/-- Words of the family from a byte on, each where the one before it ends, up to
the end of the query. -/
def Tiles (vetPosType : List PosType) : Nat → List (Bytes × TagNode) → Prop
  | byte, [] => byte = 2 * vetPosType.length
  | byte, (t, nd) :: tiles =>
    nd.start = byte ∧ (∃ pos ∈ vetPosType, ∃ e ∈ pos.posTag, e.1 = t ∧ nd ∈ e.2) ∧
      Tiles vetPosType nd.stop tiles

theorem startsWith_iff {strTmp tag : Bytes} : startsWith strTmp tag = true ↔ tag <+: strTmp := by
  rw [startsWith, beq_iff_eq, find_eq_some_iff, List.drop_zero]
  constructor
  · exact fun h => h.1.2
  · exact fun h => ⟨⟨Nat.zero_le _, h⟩, fun j hj => absurd hj (Nat.not_lt_zero j)⟩

theorem selected_iff {strTmp : Bytes} :
    selected tag 0 strTmp = true ↔ tag <+: strTmp ∨ numberTag <+: strTmp := by
  rw [selected, beq_self_eq_true, Bool.true_and, Bool.or_eq_true, startsWith_iff, startsWith_iff]

/-- With flag 0 a cover is made of words only. -/
theorem Cover.tiles (hf : Family query vetPosType) (hw : WholeWords vetPosType)
    {gap : Option Bytes} {rest : List Segment} (h : Cover tag query vetPosType 0 index gap rest) (hgap : gap = none) :
    ∃ tiles, Tiles vetPosType (2 * index) tiles ∧
      (∀ s ∈ tiles, tag <+: s.1 ∨ numberTag <+: s.1) ∧
      rest = tiles.map fun s => (s.1, s.2.text) := by
  induction h with
  | done hi =>
    rw [hgap, hi]
    exact ⟨[], rfl, (fun s hs => nomatch hs), rfl⟩
  | @node index gap pos e nd rest hpos he hsel hnd hgo hrest ih =>
    obtain ⟨tiles, htiles, htags, hrest⟩ := ih rfl
    obtain ⟨hstart, -, -, -⟩ := hf.node hpos e he nd hnd
    have heven := hw pos (List.mem_of_getElem? hpos) e he nd hnd
    have hstop : 2 * (nd.stop / 2) = nd.stop := by omega
    rw [hstop] at htiles
    refine ⟨(e.1, nd) :: tiles, ⟨hstart, ⟨pos, List.mem_of_getElem? hpos, e, he, rfl, hnd⟩, htiles⟩,
      ?_, ?_⟩
    · intro s hs
      rcases List.mem_cons.mp hs with rfl | hs
      · exact selected_iff.mp hsel
      · exact htags s hs
    · rw [hgap, hrest]
      rfl
  | skip hflag => cases hflag

theorem cover_of_tiles (hf : Family query vetPosType) (hw : WholeWords vetPosType) :
    ∀ {tiles : List (Bytes × TagNode)} {index : Nat}, Tiles vetPosType (2 * index) tiles →
    (∀ s ∈ tiles, tag <+: s.1 ∨ numberTag <+: s.1) →
    Cover tag query vetPosType 0 index none (tiles.map fun s => (s.1, s.2.text))
  | [], index, h, _ => .done (by unfold Tiles at h; omega)
  | (t, nd) :: tiles, index, h, htags => by
    obtain ⟨hstart, ⟨pos, hpos, e, he, rfl, hnd⟩, htiles⟩ := h
    obtain ⟨i, hi⟩ := List.getElem?_of_mem hpos
    obtain ⟨hstart', hlt, -, -⟩ := hf.node hi e he nd hnd
    have heven := hw pos hpos e he nd hnd
    have hindex : i = index := by omega
    have hstop : nd.stop = 2 * (nd.stop / 2) := by omega
    have hgo : index < nd.stop / 2 := by omega
    rw [hstop] at htiles
    rw [hindex] at hi
    have hrest := cover_of_tiles hf hw htiles fun s hs => htags s (List.mem_cons_of_mem _ hs)
    exact .node hi he (selected_iff.mpr (htags _ List.mem_cons_self)) hnd hgo hrest

theorem basePosComRule_writes (hf : Family query vetPosType) (h01 : flag = 0 ∨ flag = 1) :
    ∃ m, basePosComRule tag query vetPosType 0 (fun _ => none) [] [] flag = some m ∧
      Writes (coverWrites tag query vetPosType flag 0 none []) (fun _ => none) m :=
  comRule_writes hf h01 (vetPosType.length + 1) 0 none [] (fun _ => none) (by omega)
    (Nat.zero_le _) (fun s hs => nomatch hs) List.not_mem_nil fun _ => rfl

/-- **Tilings.** Both modes return, and what they store has as many parts in the key as in the
value. Where the words are made of whole characters the parts of the value are the query, and
the keys of flag 0 are the merged tags of the tilings by words that are asked for. -/
theorem basePosComRule_tilings (tag query : Bytes) (vetPosType : List PosType)
    (hf : Family query vetPosType) :
    ∃ m₀ m₁, basePosComRule tag query vetPosType 0 (fun _ => none) [] [] 0 = some m₀ ∧
      basePosComRule tag query vetPosType 0 (fun _ => none) [] [] 1 = some m₁ ∧
      (∀ k v, m₀ k = some v ∨ m₁ k = some v →
        (k.splitOn bar).length = (v.splitOn bar).length) ∧
      (WholeWords vetPosType →
        (∀ k v, m₀ k = some v ∨ m₁ k = some v → (v.splitOn bar).flatten = query) ∧
        ∀ k, (m₀ k).isSome ↔ ∃ tiles, Tiles vetPosType 0 tiles ∧
          (∀ s ∈ tiles, tag <+: s.1 ∨ numberTag <+: s.1) ∧
          k = joined (mergeTags (tiles.map Prod.fst))) := by
  obtain ⟨m₀, hm₀, hw₀⟩ := @basePosComRule_writes tag query vetPosType 0 hf (.inl rfl)
  obtain ⟨m₁, hm₁, hw₁⟩ := @basePosComRule_writes tag query vetPosType 1 hf (.inr rfl)
  have hwritten : ∀ {k v}, m₀ k = some v ∨ m₁ k = some v →
      ∃ flag, coverWrites tag query vetPosType flag 0 none [] k v := by
    intro k v hv
    exact hv.elim (fun hv => ⟨0, hw₀.of_eq_some hv⟩) fun hv => ⟨1, hw₁.of_eq_some hv⟩
  refine ⟨m₀, m₁, hm₀, hm₁, fun k v hv => ?_, fun hwhole => ⟨fun k v hv => ?_, fun k =>
    (hw₀.isSome_iff k).trans ⟨?_, ?_⟩⟩⟩
  · obtain ⟨flag, rest, hrest, rfl, rfl⟩ := hwritten hv
    exact (splitOn_rule (hrest.barless hf List.not_mem_nil)).1
  · obtain ⟨flag, rest, hrest, rfl, rfl⟩ := hwritten hv
    exact (splitOn_rule (hrest.barless hf List.not_mem_nil)).2.trans (hrest.flatten hf hwhole)
  · rintro ⟨v, rest, hrest, rfl, -⟩
    obtain ⟨tiles, htiles, htags, rfl⟩ := hrest.tiles hf hwhole rfl
    refine ⟨tiles, htiles, htags, ?_⟩
    rw [List.nil_append, ruleKey, List.map_map]
    rfl
  · rintro ⟨tiles, htiles, htags, rfl⟩
    have hcover : Cover tag query vetPosType 0 0 none (tiles.map fun s => (s.1, s.2.text)) :=
      cover_of_tiles hf hwhole htiles htags
    refine ⟨_, _, hcover, ?_, rfl⟩
    rw [List.nil_append, ruleKey, List.map_map]
    rfl

/-- A query of two characters, each a word. -/
def twoWords : List PosType :=
  [⟨[([97], [⟨[65, 66], 0, 2⟩])]⟩, ⟨[([97], [⟨[67, 68], 2, 4⟩])]⟩]

theorem basePosComRule_tilings_two :
    ∃ m₀ m₁, basePosComRule [97] [65, 66, 67, 68] twoWords 0 (fun _ => none) [] [] 0 = some m₀ ∧
      basePosComRule [97] [65, 66, 67, 68] twoWords 0 (fun _ => none) [] [] 1 = some m₁ ∧
      (m₀ [97, 124, 97]).isSome := by
  have hf : Family [65, 66, 67, 68] twoWords := by
    refine ⟨rfl, by decide, by simp [twoWords, bar], ?_⟩
    intro i pos hpos
    match i with
    | 0 => cases hpos; simp [twoWords]
    | 1 => cases hpos; simp [twoWords]
    | i + 2 => cases hpos
  obtain ⟨m₀, m₁, hm₀, hm₁, -, hall⟩ := basePosComRule_tilings [97] [65, 66, 67, 68] twoWords hf
  obtain ⟨-, hkeys⟩ := hall (by simp [WholeWords, twoWords])
  refine ⟨m₀, m₁, hm₀, hm₁, (hkeys _).mpr
    ⟨[([97], ⟨[65, 66], 0, 2⟩), ([97], ⟨[67, 68], 2, 4⟩)], ?_, ?_, ?_⟩⟩
  · simp [Tiles, twoWords]
  · simp
  · decide +kernel

/-- The first word ends in the middle of the second character. -/
def oddWords : List PosType :=
  [⟨[([97], [⟨[65, 66, 67], 0, 3⟩])]⟩, ⟨[([97], [⟨[67, 68], 2, 4⟩])]⟩]

/-- The recursion goes on at the character in which the word ends. -/
theorem basePosComRule_odd : Family [65, 66, 67, 68] oddWords ∧
    (basePosComRule [97] [65, 66, 67, 68] oddWords 0 (fun _ => none) [] [] 0).bind
        (fun m₀ => m₀ [97, 124, 97]) = some [65, 66, 67, 124, 67, 68] ∧
      ([65, 66, 67, 124, 67, 68].splitOn bar).flatten ≠ [65, 66, 67, 68] ∧
      ¬ ∃ tiles, Tiles oddWords 0 tiles ∧ (∀ s ∈ tiles, [97] <+: s.1 ∨ numberTag <+: s.1) ∧
        [97, 124, 97] = joined (mergeTags (tiles.map Prod.fst)) := by
  refine ⟨⟨rfl, by decide, by simp [oddWords, bar], ?_⟩, by decide +kernel, by decide, ?_⟩
  · intro i pos hpos
    match i with
    | 0 => cases hpos; simp [oddWords]
    | 1 => cases hpos; simp [oddWords]
    | i + 2 => cases hpos
  · rintro ⟨tiles, htiles, -⟩
    have hword : ∀ {t : Bytes} {nd : TagNode},
        (∃ pos ∈ oddWords, ∃ e ∈ pos.posTag, e.1 = t ∧ nd ∈ e.2) →
          nd = ⟨[65, 66, 67], 0, 3⟩ ∨ nd = ⟨[67, 68], 2, 4⟩ := by
      rintro t nd ⟨pos, hpos, e, he, -, hnd⟩
      simp only [oddWords, List.mem_cons, List.not_mem_nil, or_false] at hpos
      rcases hpos with rfl | rfl
      · rw [List.mem_singleton.mp he] at hnd
        exact .inl (List.mem_singleton.mp hnd)
      · rw [List.mem_singleton.mp he] at hnd
        exact .inr (List.mem_singleton.mp hnd)
    -- behind the word of three bytes the query goes on, and no word starts there
    match tiles, htiles with
    | [], hend => cases hend
    | (t, nd) :: tiles, ⟨hstart, hnd, hrest⟩ =>
      rcases hword hnd with rfl | rfl
      · match tiles, hrest with
        | [], hend => cases hend
        | (t', nd') :: _, ⟨hstart', hnd', _⟩ =>
          rcases hword hnd' with rfl | rfl
          · cases hstart'
          · cases hstart'
      · cases hstart

end

end CommonTools.QueryMatch
