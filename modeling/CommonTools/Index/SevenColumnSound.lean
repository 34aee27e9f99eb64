import Mathlib.Algebra.BigOperators.Group.List.Basic
import CommonTools.Lib.Spans
import CommonTools.Index.IndexDaSound
import CommonTools.Index.SevenColumn

/-! # What the seven-column index holds

After the sort the records of one query follow each other, so each column is
the texts of the first query, then those of the second, and so on. The loop
keeps the spans of these segments; the last segment stays open until a record
of another query or the end. -/
namespace CommonTools.Index.SevenColumn
open CommonTools.Lib CommonTools.Index.IndexDa

/-! ## Texts -/

/-- The zero-terminated texts of some rewrites in one column. -/
def reformText (c : Column) (vr_pos_reform : List PosReform) : Bytes :=
  vr_pos_reform.flatMap fun p => cstr (p.text c) ++ [0]

/-- The texts of some records in one column. -/
def columnText (c : Column) (vect : List WhiteBlackListTmp) : Bytes :=
  vect.flatMap fun v => reformText c v.vr_pos_reform

/-- The texts of the records of `q` in one column. -/
def queryText (c : Column) (vect : List WhiteBlackListTmp) (q : Bytes) : Bytes :=
  columnText c (vect.filter (·.query = q))

section
variable {c : Column} {vect : List WhiteBlackListTmp} {v : WhiteBlackListTmp} {q : Bytes}

theorem columnText_concat :
    columnText c (vect ++ [v]) = columnText c vect ++ reformText c v.vr_pos_reform := by
  simp [columnText]

theorem queryText_other (h : v.query ≠ q) : queryText c (vect ++ [v]) q = queryText c vect q := by
  simp [queryText, List.filter_append, h]

theorem queryText_next :
    queryText c (vect ++ [v]) v.query =
      queryText c vect v.query ++ reformText c v.vr_pos_reform := by
  rw [queryText, List.filter_append, show [v].filter (·.query = v.query) = [v] by simp,
    columnText_concat, queryText]

theorem queryText_none (h : ∀ u ∈ vect, u.query ≠ q) : queryText c vect q = [] := by
  have hnone : vect.filter (·.query = q) = [] :=
    List.filter_eq_nil_iff.mpr fun u hu => by simpa using h u hu
  rw [queryText, hnone]
  rfl

/-- A query with a rewrite has a text in every column, be it only a NUL. -/
theorem queryText_ne_nil (hv : v ∈ vect) (hp : v.vr_pos_reform ≠ []) :
    queryText c vect v.query ≠ [] := by
  obtain ⟨p, ps, hps⟩ := List.exists_cons_of_ne_nil hp
  have hmem : (0 : UInt8) ∈ reformText c v.vr_pos_reform := by
    rw [hps]
    simp [reformText]
  refine List.ne_nil_of_mem (List.mem_flatMap.mpr ⟨v, ?_, hmem⟩)
  exact List.mem_filter.mpr ⟨hv, by simp⟩

end

/-! ## One column -/

/-- The offsets that stand for a span: those of its first and last byte. -/
def BeginEnd.ofSpan (span : Nat × Nat) : BeginEnd :=
  ⟨BitVec.ofNat 32 span.1, BitVec.ofNat 32 span.2 - 1⟩

/-- From the first byte up to and including the last. -/
def BeginEnd.span (e : BeginEnd) : Nat × Nat := (e.begin_.toNat, e.end_.toNat + 1)

theorem BeginEnd.span_ofSpan {span : Nat × Nat} (hlt : span.1 < span.2) (hle : span.2 < 2 ^ 32) :
    (BeginEnd.ofSpan span).span = span := by
  obtain ⟨start, stop⟩ := span
  dsimp only at hlt hle
  have hstart : (BitVec.ofNat 32 start).toNat = start := by
    rw [BitVec.toNat_ofNat, Nat.mod_eq_of_lt (by omega)]
  have hstop : (BitVec.ofNat 32 stop - 1).toNat = stop - 1 := by
    have hone : (1 : BitVec 32).toNat = 1 := rfl
    rw [BitVec.toNat_sub, BitVec.toNat_ofNat, hone]
    omega
  rw [BeginEnd.span, BeginEnd.ofSpan, hstart, hstop, Nat.sub_add_cancel (by omega)]

/-- The buffer is the complete segments and the one in progress; the offsets
are kept for the complete ones. -/
structure ColumnVect.Holds (c : ColumnVect) (segs : List Bytes) (current : Bytes) : Prop where
  char_vect : c.char_vect = segs.flatten ++ current
  begin_end : c.begin_end = (spans 0 segs).map BeginEnd.ofSpan
  begin_ : c.begin_ = BitVec.ofNat 32 segs.flatten.length
  end_ : c.end_ = BitVec.ofNat 32 (segs.flatten.length + current.length)

section
variable {c : ColumnVect} {segs : List Bytes} {current : Bytes}

theorem ColumnVect.Holds.push (h : c.Holds segs current) (content : Bytes) :
    (c.push content).Holds segs (current ++ (cstr content ++ [0])) := by
  refine ⟨?_, h.begin_end, h.begin_, ?_⟩
  · rw [ColumnVect.push, pushCString, h.char_vect, List.append_assoc, List.append_assoc]
  · have hlen : segs.flatten.length + (current ++ (cstr content ++ [0])).length =
        segs.flatten.length + current.length + ((cstr content).length + 1) := by
      rw [List.length_append, List.length_append, List.length_singleton]
      omega
    rw [hlen, BitVec.ofNat_add, ← h.end_]
    rfl

theorem ColumnVect.Holds.pushAll (k : Column) : ∀ (ps : List PosReform) {c : ColumnVect}
    {current : Bytes}, c.Holds segs current →
      (ps.foldl (fun c p => c.push (p.text k)) c).Holds segs (current ++ reformText k ps)
  | [], c, current, h => by
    rwa [reformText, List.flatMap_nil, List.append_nil]
  | p :: ps, c, current, h => by
    have ih := (h.push (p.text k)).pushAll k ps
    rwa [List.append_assoc] at ih

/-- The segment in progress gets its offsets. -/
theorem ColumnVect.Holds.pushBeginEnd (h : c.Holds segs current) :
    c.pushBeginEnd.begin_end = (spans 0 (segs ++ [current])).map BeginEnd.ofSpan := by
  rw [spans_concat, List.map_append, ← h.begin_end, Nat.zero_add, List.map_singleton,
    BeginEnd.ofSpan, ← h.begin_, ← h.end_]
  rfl

theorem ColumnVect.Holds.beginQuery (h : c.Holds segs current) :
    ({ c.pushBeginEnd with begin_ := c.end_ } : ColumnVect).Holds (segs ++ [current]) [] := by
  have hlen : (segs ++ [current]).flatten.length = segs.flatten.length + current.length := by
    simp
  refine ⟨?_, h.pushBeginEnd, ?_, ?_⟩
  · rw [List.append_nil, List.flatten_append, List.flatten_singleton, ← h.char_vect]
    rfl
  · rw [hlen]
    exact h.end_
  · rw [hlen]
    exact h.end_

end

/-! ## Numbers -/

/-- The queries so far have their numbers and their lengths. -/
structure Numbered (b : Building) (qs : List Bytes) : Prop where
  num : b.num = BitVec.ofNat 32 qs.length
  querylen : b.char_vect_querylen = qs.map fun q => BitVec.ofNat 32 q.length
  number : ∀ i q, qs[i]? = some q → b.da_key_map[q]? = some (BitVec.ofNat 32 i)
  keys : ∀ q, b.da_key_map.contains q = true ↔ q ∈ qs

theorem Numbered.pushQuery {b : Building} {qs : List Bytes} (h : Numbered b qs) {query : Bytes}
    (hnew : query ∉ qs) : Numbered (b.pushQuery query) (qs ++ [query]) := by
  refine ⟨?_, ?_, fun i q hi => ?_, fun q => ?_⟩
  · rw [List.length_append, List.length_singleton, BitVec.ofNat_add, ← h.num]
    rfl
  · rw [List.map_append, ← h.querylen]
    rfl
  · rw [Building.pushQuery, Std.TreeMap.getElem?_insert]
    rcases Nat.lt_or_ge i qs.length with hlt | hge
    · rw [List.getElem?_append_left hlt] at hi
      rw [if_neg, h.number i q hi]
      rw [Std.compare_eq_iff_eq]
      exact fun he => hnew (he ▸ List.mem_of_getElem? hi)
    · obtain ⟨hlast, rfl⟩ : i = qs.length ∧ query = q := by
        rw [List.getElem?_append_right hge] at hi
        have hzero : i - qs.length = 0 := by
          have := (List.getElem?_eq_some_iff.mp hi).1
          rw [List.length_singleton] at this
          omega
        rw [hzero] at hi
        exact ⟨by omega, by simpa using hi⟩
      rw [if_pos Std.ReflCmp.compare_self, hlast, ← h.num]
  · rw [Building.pushQuery, Std.TreeMap.contains_insert, Bool.or_eq_true, beq_iff_eq,
      Std.compare_eq_iff_eq, h.keys q, List.mem_append, List.mem_singleton, or_comm, eq_comm]

/-! ## The loop -/

theorem foldl_pushReform : ∀ (ps : List PosReform) (b : Building),
    ps.foldl Building.pushReform b =
      { b with column := fun c => ps.foldl (fun v p => v.push (p.text c)) (b.column c) } := by
  intro ps
  induction ps with
  | nil =>
    intro _
    rfl
  | cons p ps ih =>
    intro b
    rw [List.foldl_cons, ih]
    rfl

/-- The round of a further record of the same query, or of the first record. -/
theorem round_same {b : Building} {itr : WhiteBlackListTmp} (hq : itr.query ≠ [])
    (hpre : b.prequery = [] ∨ b.prequery = itr.query) :
    b.round itr =
      { b with
        column := fun c =>
          itr.vr_pos_reform.foldl (fun v p => v.push (p.text c)) (b.column c)
        query := itr.query
        prequery := itr.query } := by
  rw [Building.round]
  rcases hpre with hpre | hpre
  · simp [hpre, hq, foldl_pushReform]
  · simp [hpre, hq, foldl_pushReform]

/-- The round of the first record of another query. -/
theorem round_new {b : Building} {itr : WhiteBlackListTmp} (hq : itr.query ≠ [])
    (hpre : b.prequery ≠ []) (hne : b.prequery ≠ itr.query) :
    b.round itr =
      { b.pushQuery b.prequery with
        column := fun c =>
          itr.vr_pos_reform.foldl (fun v p => v.push (p.text c))
            { (b.column c).pushBeginEnd with begin_ := (b.column c).end_ }
        query := itr.query
        prequery := itr.query } := by
  rw [Building.round]
  simp [hpre, hq, hne, foldl_pushReform, Building.beginQuery, Building.pushQuery,
    ColumnVect.pushBeginEnd]

/-- Between two rounds the queries in `qs` are complete and `prequery` is in
progress. -/
structure Open (vect : List WhiteBlackListTmp) (qs : List Bytes) (b : Building) : Prop where
  numbered : Numbered b qs
  query : b.query = b.prequery
  prequery : b.prequery ≠ []
  nodup : (qs ++ [b.prequery]).Nodup
  mem : ∀ q, q ∈ qs ++ [b.prequery] ↔ ∃ v ∈ vect, v.query = q
  column : ∀ c, (b.column c).Holds (qs.map (queryText c vect)) (queryText c vect b.prequery)
  flatten : ∀ c, (qs.map (queryText c vect)).flatten ++ queryText c vect b.prequery =
    columnText c vect
  max : ∀ v ∈ vect, compare b.prequery v.query ≠ .lt

structure Closed (vect : List WhiteBlackListTmp) (qs : List Bytes) (b : Building) : Prop where
  numbered : Numbered b qs
  nodup : qs.Nodup
  mem : ∀ q, q ∈ qs ↔ ∃ v ∈ vect, v.query = q
  flatten : ∀ c, (qs.map (queryText c vect)).flatten = columnText c vect
  char_vect : ∀ c, (b.column c).char_vect = columnText c vect
  begin_end : ∀ c, (b.column c).begin_end =
    (spans 0 (qs.map (queryText c vect))).map BeginEnd.ofSpan

section
variable {vect : List WhiteBlackListTmp} {qs : List Bytes} {b : Building}
  {itr : WhiteBlackListTmp}

/-- The texts of the queries other than that of `itr` do not change. -/
theorem map_queryText_other {c : Column} (hnew : itr.query ∉ qs) :
    qs.map (queryText c (vect ++ [itr])) = qs.map (queryText c vect) :=
  List.map_congr_left fun _ hq => queryText_other fun he => hnew (he ▸ hq)

theorem mem_concat_same {q : Bytes} (hmem : ∀ q, q ∈ qs ++ [itr.query] ↔ ∃ v ∈ vect, v.query = q) :
    q ∈ qs ++ [itr.query] ↔ ∃ v ∈ vect ++ [itr], v.query = q := by
  simp only [List.mem_append, List.mem_singleton, or_and_right, exists_or, exists_eq_left]
  rw [← hmem q, List.mem_append, List.mem_singleton]
  grind

theorem Open.prequery_notMem (h : Open vect qs b) : b.prequery ∉ qs := fun hin =>
  (List.nodup_append.mp h.nodup).2.2 _ hin _ (List.mem_singleton_self _) rfl

/-- A further record of the last query continues its segment. -/
theorem Open.round_same (h : Open vect qs b) (hq : itr.query ≠ [])
    (hpre : b.prequery = itr.query) : Open (vect ++ [itr]) qs (b.round itr) := by
  have hold : itr.query ∉ qs := hpre ▸ h.prequery_notMem
  obtain ⟨hnum, -, -, hnodup, hmem, hcol, hflat, hmax⟩ := h
  rw [hpre] at hnodup hmem hmax
  rw [SevenColumn.round_same hq (.inr hpre)]
  refine ⟨⟨hnum.num, hnum.querylen, hnum.number, hnum.keys⟩, rfl, hq, hnodup,
    fun q => mem_concat_same hmem, fun c => ?_, fun c => ?_, fun v hv => ?_⟩
  · have hc := (hcol c).pushAll c itr.vr_pos_reform
    rwa [hpre, ← queryText_next, ← map_queryText_other hold] at hc
  · rw [columnText_concat, ← hflat c, hpre, map_queryText_other hold, queryText_next,
      List.append_assoc]
  · rcases List.mem_append.mp hv with hv | hv
    · exact hmax v hv
    · rw [List.mem_singleton.mp hv]
      exact not_strcmp_lt_self _

/-- The first record of another query completes the segment before it. -/
theorem Open.round_new (h : Open vect qs b) (hq : itr.query ≠ [])
    (hnew : ∀ v ∈ vect, v.query ≠ itr.query)
    (hsorted : ∀ v ∈ vect, compare itr.query v.query ≠ .lt) :
    Open (vect ++ [itr]) (qs ++ [b.prequery]) (b.round itr) := by
  have hpre := h.prequery_notMem
  obtain ⟨hnum, -, hprequery, hnodup, hmem, hcol, hflat, -⟩ := h
  have hold : itr.query ∉ qs ++ [b.prequery] := fun hin => by
    obtain ⟨v, hv, hvq⟩ := (hmem _).mp hin
    exact hnew v hv hvq
  have hne : b.prequery ≠ itr.query := fun he => hold (he ▸ List.mem_append_right _ (by simp))
  have hpush := hnum.pushQuery hpre
  have hnil : ∀ c, queryText c vect itr.query = [] := fun c => queryText_none hnew
  rw [SevenColumn.round_new hq hprequery hne]
  refine ⟨⟨hpush.num, hpush.querylen, hpush.number, hpush.keys⟩, rfl, hq, ?_, fun q => ?_,
    fun c => ?_, fun c => ?_, fun v hv => ?_⟩
  · refine List.nodup_append.mpr ⟨hnodup, List.nodup_singleton _, fun q hin q' hq' he => ?_⟩
    rw [he, List.mem_singleton.mp hq'] at hin
    exact hold hin
  · rw [List.mem_append, List.mem_singleton, hmem q]
    simp only [List.mem_append, List.mem_singleton, or_and_right, exists_or, exists_eq_left]
    rw [eq_comm (a := q)]
  · have hc := (hcol c).beginQuery.pushAll c itr.vr_pos_reform
    rwa [← List.map_singleton, ← List.map_append, ← map_queryText_other hold, ← hnil c,
      ← queryText_next] at hc
  · rw [columnText_concat, ← hflat c, map_queryText_other hold, queryText_next, hnil c,
      List.map_append, List.map_singleton, List.flatten_append, List.flatten_singleton,
      List.nil_append]
  · rcases List.mem_append.mp hv with hv | hv
    · exact hsorted v hv
    · rw [List.mem_singleton.mp hv]
      exact not_strcmp_lt_self _

theorem Open.round (h : Open vect qs b) (hq : itr.query ≠ [])
    (hsorted : ∀ v ∈ vect, compare itr.query v.query ≠ .lt) :
    ∃ qs', Open (vect ++ [itr]) qs' (b.round itr) := by
  by_cases hseen : ∃ v ∈ vect, v.query = itr.query
  · obtain ⟨v, hv, hvq⟩ := hseen
    obtain ⟨w, hw, hwq⟩ := (h.mem b.prequery).mp (by simp)
    refine ⟨qs, h.round_same hq ?_⟩
    exact eq_of_not_lt (hvq ▸ h.max v hv) (hwq ▸ hsorted w hw)
  · exact ⟨_, h.round_new hq (fun v hv hvq => hseen ⟨v, hv, hvq⟩) hsorted⟩

theorem Open.first (hq : itr.query ≠ []) : Open [itr] [] (Building.init.round itr) := by
  have hinit : ∀ c, (Building.init.column c).Holds [] [] := fun c => ⟨rfl, rfl, rfl, rfl⟩
  have htext : ∀ c, queryText c [itr] itr.query = reformText c itr.vr_pos_reform := fun c => by
    simp [queryText, columnText]
  rw [SevenColumn.round_same hq (.inl rfl)]
  refine ⟨⟨rfl, rfl, fun i q hi => by simp at hi, fun q => by simp [Building.init]⟩, rfl, hq,
    by simp, fun q => by simp [eq_comm], fun c => ?_, fun c => ?_, fun v hv => ?_⟩
  · rw [htext c]
    exact (hinit c).pushAll c itr.vr_pos_reform
  · rw [htext c]
    simp [columnText]
  · rw [List.mem_singleton.mp hv]
    exact not_strcmp_lt_self _

/-- The last query is pushed behind the loop. -/
theorem Open.push (h : Open vect qs b) :
    Closed vect (qs ++ [b.prequery]) (b.pushQuery b.query) := by
  have hpre := h.prequery_notMem
  obtain ⟨hnum, hquery, -, hnodup, hmem, hcol, hflat, -⟩ := h
  rw [hquery]
  refine ⟨hnum.pushQuery hpre, hnodup, hmem, fun c => ?_, fun c => ?_, fun c => ?_⟩
  · rw [← hflat c]
    simp
  · rw [← hflat c]
    exact (hcol c).char_vect
  · rw [List.map_append, List.map_singleton]
    exact (hcol c).pushBeginEnd

end

/-- The loop, from a state between two rounds on. -/
theorem foldl_round_open : ∀ (rest vect : List WhiteBlackListTmp) {qs : List Bytes} {b : Building},
    Open vect qs b → (∀ v ∈ rest, v.query ≠ []) →
    (vect ++ rest).Pairwise (fun a b => comp2 b a = false) →
    ∃ qs', Open (vect ++ rest) qs' (rest.foldl Building.round b) := by
  intro rest
  induction rest with
  | nil =>
    intro vect qs b h _ _
    exact ⟨qs, by rwa [List.append_nil]⟩
  | cons itr rest ih =>
    intro vect qs b h hq hsorted
    have hsplit : vect ++ itr :: rest = (vect ++ [itr]) ++ rest := by simp
    obtain ⟨qs', h'⟩ := h.round (hq itr List.mem_cons_self) fun v hv hlt => by
      have hcomp := (List.pairwise_append.mp hsorted).2.2 v hv itr List.mem_cons_self
      rw [comp2, hlt] at hcomp
      cases hcomp
    rw [hsplit] at hsorted ⊢
    exact ih (vect ++ [itr]) h'
      (fun v hv => hq v (List.mem_cons_of_mem itr hv)) hsorted

/-- The loop leaves the queries in the order of their numbers. -/
theorem outputLoop_closed {vect : List WhiteBlackListTmp} (hne : vect ≠ [])
    (hq : ∀ v ∈ vect, v.query ≠ [])
    (hsorted : vect.Pairwise fun a b => comp2 b a = false) :
    ∃ qs, Closed vect qs (outputLoop vect) := by
  obtain ⟨itr, rest, rfl⟩ := List.exists_cons_of_ne_nil hne
  obtain ⟨qs, h⟩ := foldl_round_open rest [itr] (Open.first (hq itr List.mem_cons_self))
    (fun v hv => hq v (List.mem_cons_of_mem itr hv)) hsorted
  exact ⟨_, h.push⟩

/-! ## The file -/

theorem readArray_written {α : Type} [Pod α] (hs : 0 < Pod.size α) (junk : Nat → Nat → UInt8)
    (tag : Nat) {l : List α} (hl : l.length < 2 ^ 32) (rest : Bytes) :
    readArray α junk tag (Pod.toBytes (BitVec.ofNat 32 l.length) ++ block l ++ rest) =
      some ⟨BitVec.ofNat 32 l.length, l, rest⟩ := by
  have hlen : (BitVec.ofNat 32 l.length).toNat = l.length := by
    rw [BitVec.toNat_ofNat, Nat.mod_eq_of_lt hl]
  have hcount := fread_u32 (BitVec.ofNat 32 l.length) (fresh junk tag 4) (block l ++ rest)
    (fresh_length _ _ _)
  have hitems := fread_block l (fresh junk (tag + 1) (Pod.size α * l.length)) rest hs
    (fresh_length _ _ _)
  rw [List.append_assoc, readArray]
  simp only [hcount, ne_eq, not_true_eq_false, if_false, Pod.ofBytes_toBytes, hlen, hitems,
    unblock_block]

theorem readArray_writeBeginEnd (junk : Nat → Nat → UInt8) (tag : Nat) {l : List BeginEnd}
    (hl : l.length < 2 ^ 32) (rest : Bytes) :
    readArray BeginEnd junk tag (writeBeginEnd l ++ rest) =
      some ⟨BitVec.ofNat 32 l.length, l, rest⟩ :=
  readArray_written (by decide) junk tag hl rest

/-- Only as many items come back as the count of 32 bits says. -/
theorem readArray_writeChars {α : Type} [Pod α] (hs : 0 < Pod.size α) (junk : Nat → Nat → UInt8)
    (tag : Nat) (l : List α) (rest : Bytes) :
    readArray α junk tag (writeChars l ++ rest) =
      some ⟨BitVec.ofNat 32 l.length, l.take (l.length % 2 ^ 32), rest⟩ := by
  have hlen : (l.take (l.length % 2 ^ 32)).length = l.length % 2 ^ 32 :=
    List.length_take_of_le (Nat.mod_le _ _)
  have hcount : BitVec.ofNat 32 (l.length % 2 ^ 32) = BitVec.ofNat 32 l.length := by
    apply BitVec.eq_of_toNat_eq
    rw [BitVec.toNat_ofNat, BitVec.toNat_ofNat, Nat.mod_mod]
  have hshort : (l.take (l.length % 2 ^ 32)).length < 2 ^ 32 := by
    rw [hlen]
    exact Nat.mod_lt _ (Nat.two_pow_pos 32)
  have hread := readArray_written hs junk tag hshort rest
  rw [hlen, hcount] at hread
  rw [writeChars, BitVec.toNat_ofNat]
  exact hread

/-- What comes back of the arrays of `b`. -/
def Building.index (b : Building) (units : List (BitVec 32)) : WhiteBlackIndex where
  da_ := units
  begin_end c := (b.column c).begin_end
  begin_end_length := BitVec.ofNat 32 (b.column .vr).begin_end.length
  buf c := (b.column c).char_vect.take ((b.column c).char_vect.length % 2 ^ 32)
  buf_len c := BitVec.ofNat 32 (b.column c).char_vect.length
  buf_querylen := b.char_vect_querylen.take (b.char_vect_querylen.length % 2 ^ 32)
  buf_querylen_len := BitVec.ofNat 32 b.char_vect_querylen.length
  m_len_ := BitVec.ofNat 32 (b.column .iswappc).char_vect.length

section
variable {β : Type} (junk : Nat → Nat → UInt8) (tag : Nat) (rest : Bytes)

theorem beginEnd_bind {l : List BeginEnd} (hl : l.length < 2 ^ 32)
    (k : ArrayRead BeginEnd → Option β) :
    (readArray BeginEnd junk tag (writeBeginEnd l ++ rest) >>= k) =
      k ⟨BitVec.ofNat 32 l.length, l, rest⟩ := by
  rw [readArray_writeBeginEnd junk tag hl]
  rfl

theorem chars_bind {α : Type} [Pod α] (hs : 0 < Pod.size α) (l : List α)
    (k : ArrayRead α → Option β) :
    (readArray α junk tag (writeChars l ++ rest) >>= k) =
      k ⟨BitVec.ofNat 32 l.length, l.take (l.length % 2 ^ 32), rest⟩ := by
  rw [readArray_writeChars hs]
  rfl

end

/-- A written file loads with all its arrays. -/
theorem loadIndex_written (junk : Nat → Nat → UInt8) {b : Building} {units : List (BitVec 32)}
    (hpos : 0 < units.length) (hunits : units.length * 4 < 2 ^ 32)
    (hcount : ∀ c, (b.column c).begin_end.length < 2 ^ 32) (post : Bytes) :
    loadIndex junk (Pod.toBytes (0 : BitVec 32) ++
      Pod.toBytes (BitVec.ofNat 32 (units.length * 4)) ++ block units ++ b.arrays ++ post) =
      some (b.index units) := by
  have hda : (BitVec.ofNat 32 (units.length * 4)).toNat = units.length * 4 := by
    rw [BitVec.toNat_ofNat, Nat.mod_eq_of_lt hunits]
  generalize hsize : BitVec.ofNat 32 (units.length * 4) = da_size at hda ⊢
  simp only [List.append_assoc]
  rw [← fileOf]
  simp only [loadIndex, fileOf_first, fread_u32 da_size (Pod.toBytes (0 : BitVec 32)) _ rfl, ne_eq,
    not_true_eq_false, if_false, Pod.ofBytes_toBytes, hda, fileOf_drop, fileOf_open junk _ hpos]
  have hbyte : 0 < Pod.size UInt8 := by decide
  have hint : 0 < Pod.size (BitVec 32) := by decide
  change (readArray BeginEnd junk 1 (b.arrays ++ post) >>= _) = _
  rw [Building.arrays]
  simp only [List.append_assoc]
  rw [beginEnd_bind junk 1 _ (hcount .vr), beginEnd_bind junk 3 _ (hcount .label),
    beginEnd_bind junk 5 _ (hcount .type), beginEnd_bind junk 7 _ (hcount .reform),
    beginEnd_bind junk 9 _ (hcount .itemquery), beginEnd_bind junk 11 _ (hcount .data),
    beginEnd_bind junk 13 _ (hcount .iswappc), chars_bind junk 15 _ hbyte,
    chars_bind junk 17 _ hbyte, chars_bind junk 19 _ hbyte, chars_bind junk 21 _ hbyte,
    chars_bind junk 23 _ hbyte, chars_bind junk 25 _ hbyte, chars_bind junk 27 _ hbyte,
    chars_bind junk 29 _ hint]
  refine congrArg some ?_
  rw [Building.index]
  congr 1
  · funext c
    cases c <;> rfl
  · funext c
    cases c <;> rfl
  · funext c
    cases c <;> rfl

theorem outputIndexFile_file {d : Darts} {sort : List WhiteBlackListTmp → List WhiteBlackListTmp}
    {vect : List WhiteBlackListTmp}
    (hpos : 0 < (d.build (daKeys (outputLoop (sort vect)).da_key_map)).length) :
    ∃ post, outputIndexFile d sort vect = (0, Pod.toBytes (0 : BitVec 32) ++
      Pod.toBytes (BitVec.ofNat 32
        ((d.build (daKeys (outputLoop (sort vect)).da_key_map)).length * 4)) ++
      block (d.build (daKeys (outputLoop (sort vect)).da_key_map)) ++
      (outputLoop (sort vect)).arrays ++ post) := by
  rw [outputIndexFile]
  dsimp only
  rw [if_neg (Nat.ne_of_gt hpos)]
  exact ⟨_, rfl⟩

/-! ## The round trip -/

def WellFormed (v : WhiteBlackListTmp) : Prop := v.query ≠ [] ∧ v.vr_pos_reform ≠ []

instance (v : WhiteBlackListTmp) : Decidable (WellFormed v) :=
  inferInstanceAs (Decidable (v.query ≠ [] ∧ v.vr_pos_reform ≠ []))

section
variable {vect : List WhiteBlackListTmp} {qs : List Bytes} {b : Building}

theorem Closed.segment_ne_nil (h : Closed vect qs b) (hwf : ∀ v ∈ vect, WellFormed v) (c : Column) :
    ∀ seg ∈ qs.map (queryText c vect), seg ≠ [] := by
  intro seg hseg
  obtain ⟨q, hq, rfl⟩ := List.mem_map.mp hseg
  obtain ⟨v, hv, rfl⟩ := (h.mem q).mp hq
  exact queryText_ne_nil hv (hwf v hv).2

/-- There are no more queries than bytes in a column. -/
theorem Closed.length_le (h : Closed vect qs b) (hwf : ∀ v ∈ vect, WellFormed v) (c : Column) :
    qs.length ≤ (columnText c vect).length := by
  have hone : ∀ n ∈ (qs.map (queryText c vect)).map List.length, 1 ≤ n := fun n hn => by
    obtain ⟨seg, hseg, rfl⟩ := List.mem_map.mp hn
    exact List.length_pos_iff.mpr (h.segment_ne_nil hwf c seg hseg)
  have hle := List.length_le_sum_of_one_le _ hone
  rwa [← List.length_flatten, h.flatten c, List.length_map, List.length_map] at hle

/-- The offsets of 32 bits are the spans of the segments. -/
theorem Closed.map_span (h : Closed vect qs b) (hwf : ∀ v ∈ vect, WellFormed v) {c : Column}
    (hsize : (columnText c vect).length < 2 ^ 32) :
    (b.column c).begin_end.map BeginEnd.span = spans 0 (qs.map (queryText c vect)) := by
  rw [h.begin_end c, List.map_map]
  conv_rhs => rw [← List.map_id (spans 0 _)]
  refine List.map_congr_left fun span hspan => ?_
  obtain ⟨seg, hseg, hlen, hstop⟩ := mem_spans hspan
  have hpos := List.length_pos_iff.mpr (h.segment_ne_nil hwf c seg hseg)
  rw [h.flatten c] at hstop
  exact BeginEnd.span_ofSpan (by omega) (by omega)

/-- The bytes from begin to end of a number are the texts of its query. -/
theorem Closed.slice_text (h : Closed vect qs b) (hwf : ∀ v ∈ vect, WellFormed v) {c : Column}
    (hsize : (columnText c vect).length < 2 ^ 32) {i : Nat} {q : Bytes} (hi : qs[i]? = some q) :
    ∃ e, (b.column c).begin_end[i]? = some e ∧
      slice (b.column c).char_vect e.span = queryText c vect q := by
  have hseg : (qs.map (queryText c vect))[i]? = some (queryText c vect q) := by
    rw [List.getElem?_map, hi]
    rfl
  obtain ⟨span, hspan, htext⟩ := slice_spans [] hseg
  rw [List.length_nil, ← h.map_span hwf hsize, List.getElem?_map, Option.map_eq_some_iff] at hspan
  obtain ⟨e, he, rfl⟩ := hspan
  rw [List.nil_append, h.flatten c, ← h.char_vect c] at htext
  exact ⟨e, he, htext⟩

/-- A buffer below 4 GiB comes back whole. -/
theorem Closed.index_buf (h : Closed vect qs b) {c : Column}
    (hsize : (columnText c vect).length < 2 ^ 32) (units : List (BitVec 32)) :
    (b.index units).buf c = (b.column c).char_vect := by
  change (b.column c).char_vect.take ((b.column c).char_vect.length % 2 ^ 32) = _
  rw [h.char_vect c, Nat.mod_eq_of_lt hsize, List.take_length]

theorem Closed.nulFree (h : Closed vect qs b) (hfree : ∀ v ∈ vect, NulFree v.query) :
    ∀ e ∈ b.da_key_map.toList, NulFree e.1 := fun e he => by
  have hkey : b.da_key_map.contains e.1 = true := by
    rw [Std.TreeMap.contains_eq_isSome_getElem?, Std.TreeMap.mem_toList_iff_getElem?_eq_some.mp he]
    rfl
  obtain ⟨v, hv, hq⟩ := (h.mem e.1).mp ((h.numbered.keys e.1).mp hkey)
  exact hq ▸ hfree v hv

end

theorem columnText_length_perm {c : Column} {l l' : List WhiteBlackListTmp} (h : l.Perm l') :
    (columnText c l).length = (columnText c l').length :=
  (h.flatMap_right _).length_eq

section
variable {vect : List WhiteBlackListTmp} {qs : List Bytes} {b : Building}

theorem Closed.query_of_mem (h : Closed vect qs b) {e : Bytes × BitVec 32}
    (he : e ∈ b.da_key_map.toList) : ∃ v ∈ vect, v.query = e.1 := by
  refine (h.mem e.1).mp ((h.numbered.keys e.1).mp ?_)
  rw [Std.TreeMap.contains_eq_isSome_getElem?, Std.TreeMap.mem_toList_iff_getElem?_eq_some.mp he]
  rfl

theorem Closed.cloneDarts (h : Closed vect qs b) (hfree : ∀ v ∈ vect, NulFree v.query)
    (hsize : keyLength (vect.map WhiteBlackListTmp.query) + 2 < 2 ^ 21) :
    DartsClone.build (daKeys b.da_key_map) = .ok (cloneDarts.build (daKeys b.da_key_map)) ∧
      DartsClone.Answers (daKeys b.da_key_map) (cloneDarts.build (daKeys b.da_key_map)) ∧
      cloneDarts.Exact (daKeys b.da_key_map) := by
  refine daKeys_cloneDarts (h.nulFree hfree) (fun e he => ?_) hsize
  obtain ⟨v, hv, hvq⟩ := h.query_of_mem he
  exact List.mem_map.mpr ⟨v, hv, hvq⟩

end

/-- **The round trip of the seven columns.** Every query has a number, under
which the double array, the lengths and the offsets of each column are those of
the query; the spans of a column lie in the order of the numbers and fill the
buffer. -/
theorem loadIndex_columns (d : Darts) (sort : List WhiteBlackListTmp → List WhiteBlackListTmp)
    (junk : Nat → Nat → UInt8) (vect : List WhiteBlackListTmp) (hne : vect ≠ [])
    (hperm : (sort vect).Perm vect)
    (hsorted : (sort vect).Pairwise fun a b => comp2 b a = false)
    (hwf : ∀ v ∈ vect, WellFormed v)
    (hpos : 0 < (d.build (daKeys (outputLoop (sort vect)).da_key_map)).length)
    (hunits : (d.build (daKeys (outputLoop (sort vect)).da_key_map)).length * 4 < 2 ^ 32)
    (hsize : ∀ c, (columnText c vect).length < 2 ^ 32) :
    (outputIndexFile d sort vect).1 = 0 ∧
      ∃ (index : WhiteBlackIndex) (qs : List Bytes),
        loadIndex junk (outputIndexFile d sort vect).2 = some index ∧
        qs.Nodup ∧ (∀ q, q ∈ qs ↔ ∃ v ∈ vect, v.query = q) ∧
        (∀ q ∈ qs, ∃ num : BitVec 32, qs[num.toNat]? = some q ∧
          (outputLoop (sort vect)).da_key_map[q]? = some num ∧
          (d.Exact (daKeys (outputLoop (sort vect)).da_key_map) → (∀ v ∈ vect, NulFree v.query) →
            d.exactMatchSearch index.da_ q = num.toInt) ∧
          index.buf_querylen[num.toNat]? = some (BitVec.ofNat 32 q.length) ∧
          ∀ c, ∃ e, (index.begin_end c)[num.toNat]? = some e ∧
            slice (index.buf c) e.span = queryText c (sort vect) q) ∧
        ∀ c, (index.begin_end c).length = qs.length ∧
          ((index.begin_end c).map BeginEnd.span).Pairwise (fun a b => a.2 ≤ b.1) ∧
          Adjacent 0 ((index.begin_end c).map BeginEnd.span) (index.buf c).length := by
  have hmem : ∀ v, v ∈ sort vect ↔ v ∈ vect := fun v => hperm.mem_iff
  have hwf' : ∀ v ∈ sort vect, WellFormed v := fun v hv => hwf v ((hmem v).mp hv)
  have hne' : sort vect ≠ [] := fun he => hne (List.perm_nil.mp (he ▸ hperm).symm)
  have hsize' : ∀ c, (columnText c (sort vect)).length < 2 ^ 32 := fun c => by
    rw [columnText_length_perm hperm]
    exact hsize c
  obtain ⟨qs, h⟩ := outputLoop_closed hne' (fun v hv => (hwf' v hv).1) hsorted
  have hqs : qs.length < 2 ^ 32 := Nat.lt_of_le_of_lt (h.length_le hwf' .vr) (hsize' .vr)
  have hcount : ∀ c, ((outputLoop (sort vect)).column c).begin_end.length = qs.length := fun c => by
    rw [h.begin_end c, List.length_map, spans_length, List.length_map]
  obtain ⟨post, hout⟩ := outputIndexFile_file hpos
  rw [hout]
  refine ⟨rfl, _, qs, loadIndex_written junk hpos hunits (fun c => hcount c ▸ hqs) post, h.nodup,
    fun q => ?_, fun q hq => ?_, fun c => ?_⟩
  · rw [h.mem q]
    simp only [hmem]
  · obtain ⟨i, hi⟩ := List.mem_iff_getElem?.mp hq
    have hlt : i < qs.length := (List.getElem?_eq_some_iff.mp hi).1
    have hnum : (BitVec.ofNat 32 i).toNat = i := by
      rw [BitVec.toNat_ofNat, Nat.mod_eq_of_lt (by omega)]
    refine ⟨BitVec.ofNat 32 i, by rw [hnum, hi], h.numbered.number i q hi,
      fun hexact hfree => ?_, ?_, fun c => ?_⟩
    · have hfree' := h.nulFree fun v hv => hfree v ((hmem v).mp hv)
      obtain ⟨v, hv, hvq⟩ := (h.mem q).mp hq
      have hlookup := daKeys_lookup hfree' (h.numbered.number i q hi)
      exact (hexact.search q (hvq ▸ hfree v ((hmem v).mp hv))).trans (by rw [hlookup]; rfl)
    · rw [hnum, Building.index, h.numbered.querylen, List.length_map, Nat.mod_eq_of_lt hqs,
        List.take_of_length_le (by rw [List.length_map]), List.getElem?_map, hi]
      rfl
    · rw [hnum, h.index_buf (hsize' c)]
      exact h.slice_text hwf' (hsize' c) hi
  · have hadj : Adjacent 0 (((outputLoop (sort vect)).column c).begin_end.map BeginEnd.span)
        (columnText c (sort vect)).length := by
      have hspans := adjacent_spans 0 (qs.map (queryText c (sort vect)))
      rwa [h.flatten c, Nat.zero_add, ← h.map_span hwf' (hsize' c)] at hspans
    refine ⟨hcount c, hadj.disjoint, ?_⟩
    rw [h.index_buf (hsize' c), h.char_vect c]
    exact hadj

/-! ### Two queries in three records -/

def sortTmp : List WhiteBlackListTmp → List WhiteBlackListTmp :=
  List.insertionSort fun a b => comp2 b a = false

/-- `b` with the first texts `x` and `z`, and `a` with `y`. -/
def threeRecords : List WhiteBlackListTmp :=
  [⟨[98], [⟨[120], [], [], [], [], [], []⟩]⟩, ⟨[97], [⟨[121], [], [], [], [], [], []⟩]⟩,
    ⟨[98], [⟨[122], [], [], [], [], [], []⟩]⟩]

theorem threeRecords_exact :
    cloneDarts.Exact (daKeys (outputLoop (sortTmp threeRecords)).da_key_map) := by
  obtain ⟨qs, h⟩ : ∃ qs, Closed (sortTmp threeRecords) qs (outputLoop (sortTmp threeRecords)) :=
    outputLoop_closed (by decide +kernel) (by decide +kernel) (by decide +kernel)
  exact (h.cloneDarts (by decide +kernel) (by decide +kernel)).2.2

theorem loadIndex_columns_three :
    ∃ index e, loadIndex (fun _ _ => 0) (outputIndexFile cloneDarts sortTmp threeRecords).2 =
        some index ∧ cloneDarts.exactMatchSearch index.da_ [98] = 1 ∧
      (index.begin_end .vr)[1]? = some e ∧ slice (index.buf .vr) e.span = [120, 0, 122, 0] := by
  obtain ⟨-, index, qs, hload, -, hmem, hquery, -⟩ := loadIndex_columns cloneDarts sortTmp
    (fun _ _ => 0) threeRecords (by decide) (by decide +kernel) (by decide +kernel) (by decide)
    threeRecords_exact.units_pos threeRecords_exact.units_lt (fun c => by cases c <;> decide)
  obtain ⟨num, -, hnum, hsearch, -, htext⟩ := hquery [98] ((hmem _).mpr (by decide))
  have hone : (outputLoop (sortTmp threeRecords)).da_key_map[([98] : Bytes)]? = some 1 := by
    decide +kernel
  obtain rfl : num = 1 := Option.some.inj (hnum.symm.trans hone)
  obtain ⟨e, he, hslice⟩ := htext .vr
  exact ⟨index, e, hload, hsearch threeRecords_exact (by decide), he,
    hslice.trans (by decide +kernel)⟩

/-! ### A column of 4 GiB -/

/-- `a` with one text of `n` bytes. -/
def longLine (n : Nat) : WhiteBlackListTmp :=
  ⟨[97], [⟨List.replicate n 120, [], [], [], [], [], []⟩]⟩

theorem columnText_longLine (n : Nat) :
    columnText .vr [longLine n] = List.replicate n 120 ++ [0] := by
  have hfree : NulFree (List.replicate n 120) := fun b hb => by
    rw [List.eq_of_mem_replicate hb]
    decide
  have htext : columnText .vr [longLine n] = cstr (List.replicate n 120) ++ [0] := by
    simp [columnText, longLine, reformText, PosReform.text]
  rw [htext, cstr_eq_self hfree]

theorem longLine_closed (n : Nat) : ∃ qs, Closed [longLine n] qs (outputLoop [longLine n]) :=
  outputLoop_closed (List.cons_ne_nil _ _)
    (fun v hv => by rw [List.mem_singleton.mp hv]; exact List.cons_ne_nil _ _)
    (List.pairwise_singleton _ _)

theorem longLine_exact (n : Nat) :
    cloneDarts.Exact (daKeys (outputLoop [longLine n]).da_key_map) := by
  obtain ⟨qs, h⟩ := longLine_closed n
  refine (h.cloneDarts (fun v hv => ?_) ?_).2.2
  · rw [List.mem_singleton.mp hv]
    exact (by decide : NulFree [97])
  · exact (by decide : keyLength [[97]] + 2 < 2 ^ 21)

/-- The lengths of 32 bits lose a buffer of `2 ^ 32` bytes. -/
theorem longLine_wrapped (junk : Nat → Nat → UInt8) {n : Nat} (hwrap : (n + 1) % 2 ^ 32 = 0) :
    ∃ index, loadIndex junk (outputIndexFile cloneDarts id [longLine n]).2 = some index ∧
      (outputLoop [longLine n]).da_key_map[(longLine n).query]? = some 0 ∧
      ¬ ∃ e, (index.begin_end .vr)[0]? = some e ∧
        slice (index.buf .vr) e.span = queryText .vr [longLine n] (longLine n).query := by
  obtain ⟨qs, h⟩ := longLine_closed n
  have hexact := longLine_exact n
  have hqs : qs = [(longLine n).query] := by
    refine List.perm_singleton.mp ((List.perm_ext_iff_of_nodup h.nodup (List.nodup_singleton _)).mpr
      fun q => ?_)
    rw [h.mem q, List.mem_singleton]
    constructor
    · rintro ⟨v, hv, rfl⟩
      rw [List.mem_singleton.mp hv]
    · rintro rfl
      exact ⟨longLine n, List.mem_singleton_self _, rfl⟩
  have hcount : ∀ c, ((outputLoop [longLine n]).column c).begin_end.length < 2 ^ 32 := fun c => by
    rw [h.begin_end c, List.length_map, spans_length, List.length_map, hqs]
    exact (by decide : 1 < 2 ^ 32)
  obtain ⟨post, hout⟩ := @outputIndexFile_file cloneDarts id [longLine n] hexact.units_pos
  rw [hout]
  refine ⟨_, loadIndex_written junk hexact.units_pos hexact.units_lt hcount post, ?_, ?_⟩
  · exact h.numbered.number 0 _ (by rw [hqs]; rfl)
  · rintro ⟨e, -, htext⟩
    have hbuf : ((outputLoop [longLine n]).index (cloneDarts.build (daKeys
        (outputLoop [longLine n]).da_key_map))).buf .vr = [] := by
      change ((outputLoop _).column .vr).char_vect.take
        (((outputLoop _).column .vr).char_vect.length % 2 ^ 32) = _
      rw [h.char_vect .vr, columnText_longLine, List.length_append, List.length_replicate,
        List.length_singleton, hwrap, List.take_zero]
    rw [hbuf] at htext
    refine queryText_ne_nil (c := .vr) (List.mem_singleton_self (longLine n)) (List.cons_ne_nil _ _)
      (htext.symm.trans ?_)
    simp [slice]

def fullLines : List WhiteBlackListTmp := [longLine (2 ^ 32 - 1)]

/-- After one text of `2 ^ 32 - 1` bytes its buffer comes back empty. -/
theorem loadIndex_columns_wrapped :
    fullLines ≠ [] ∧ (∀ v ∈ fullLines, WellFormed v ∧ NulFree v.query) ∧
      (fullLines.Pairwise fun a b => comp2 b a = false) ∧
      cloneDarts.Exact (daKeys (outputLoop fullLines).da_key_map) ∧
      ∃ index, loadIndex (fun _ _ => 0) (outputIndexFile cloneDarts id fullLines).2 = some index ∧
        (outputLoop fullLines).da_key_map[(longLine (2 ^ 32 - 1)).query]? = some 0 ∧
        ¬ ∃ e, (index.begin_end .vr)[0]? = some e ∧
          slice (index.buf .vr) e.span =
            queryText .vr fullLines (longLine (2 ^ 32 - 1)).query := by
  rw [fullLines]
  generalize hn : (2 ^ 32 - 1 : Nat) = n
  refine ⟨List.cons_ne_nil _ _, fun v hv => ?_, List.pairwise_singleton _ _, longLine_exact n, ?_⟩
  · rw [List.mem_singleton.mp hv]
    exact ⟨⟨List.cons_ne_nil _ _, List.cons_ne_nil _ _⟩, (by decide : NulFree [97])⟩
  · exact longLine_wrapped (fun _ _ => 0) (by omega)

end CommonTools.Index.SevenColumn
