import Mathlib.Data.List.Sort
import CommonTools.Index.CloneDarts

/-! # What the double-array index answers

The sort brings the entries of one query together, so the loop joins all of
them before it pushes the text, and the offset it has kept for the query is
where that text begins. -/
namespace CommonTools.Index.IndexDa
open CommonTools.Lib

/-! ## Joined extends -/

theorem intercalate_concat {α : Type} (sep x : List α) :
    ∀ xs : List (List α), xs ≠ [] →
      sep.intercalate (xs ++ [x]) = sep.intercalate xs ++ (sep ++ x)
  | [y], _ => by
    rw [List.singleton_append, List.intercalate_cons_cons, List.intercalate_singleton,
      List.intercalate_singleton, List.append_assoc]
  | y :: z :: xs, _ => by
    rw [List.cons_append, List.intercalate_cons_of_ne_nil (by simp),
      intercalate_concat sep x (z :: xs) (List.cons_ne_nil z xs), List.intercalate_cons_cons]
    simp

/-- The trimmed extends of the entries for `q`, in their order. -/
def joined (vect : List ST) (q : Bytes) : Bytes :=
  separator.intercalate ((vect.filter (·.query = q)).map fun v => stringTrim v.extend)

theorem joined_other {v : ST} {q : Bytes} (h : v.query ≠ q) (vect : List ST) :
    joined (vect ++ [v]) q = joined vect q := by
  simp [joined, List.filter_append, h]

theorem joined_first {v : ST} {vect : List ST} (h : ∀ u ∈ vect, u.query ≠ v.query) :
    joined (vect ++ [v]) v.query = stringTrim v.extend := by
  have hnone : vect.filter (·.query = v.query) = [] :=
    List.filter_eq_nil_iff.mpr fun u hu => by simpa using h u hu
  simp [joined, List.filter_append, hnone]

theorem joined_next {v u : ST} {vect : List ST} (hu : u ∈ vect) (h : u.query = v.query) :
    joined (vect ++ [v]) v.query =
      joined vect v.query ++ (separator ++ stringTrim v.extend) := by
  have hsome : (vect.filter (·.query = v.query)).map (fun w => stringTrim w.extend) ≠ [] := by
    rw [Ne, List.map_eq_nil_iff]
    exact List.ne_nil_of_mem (List.mem_filter.mpr ⟨hu, by simpa using h⟩)
  rw [joined, List.filter_append, List.map_append,
    show [v].filter (·.query = v.query) = [v] by simp]
  exact intercalate_concat _ _ _ hsome

theorem nulFree_stringTrim {s : Bytes} (h : NulFree s) : NulFree (stringTrim s) := by
  intro b hb
  rw [stringTrim] at hb
  split at hb
  · exact absurd hb List.not_mem_nil
  · exact h b (List.mem_of_mem_drop (List.mem_of_mem_take hb))

theorem nulFree_joined {vect : List ST} (h : ∀ v ∈ vect, NulFree v.extend) (q : Bytes) :
    NulFree (joined vect q) := by
  rw [joined]
  have hall : ∀ t ∈ (vect.filter (·.query = q)).map (fun v => stringTrim v.extend),
      NulFree t := by
    intro t ht
    obtain ⟨v, hv, rfl⟩ := List.mem_map.mp ht
    exact nulFree_stringTrim (h v (List.mem_filter.mp hv).1)
  generalize (vect.filter (·.query = q)).map (fun v => stringTrim v.extend) = ts at hall
  induction ts with
  | nil => exact NulFree.nil
  | cons t ts ih =>
    have ht := hall t List.mem_cons_self
    by_cases hnil : ts = []
    · subst hnil
      rwa [List.intercalate_singleton]
    · rw [List.intercalate_cons_of_ne_nil hnil]
      exact (ht.append (by decide)).append (ih fun u hu => hall u (List.mem_cons_of_mem t hu))

/-! ## The loop -/

/-- The text of `q` stands in the buffer at the offset kept for `q`. -/
def Written (b : Building) (vect : List ST) (q : Bytes) : Prop :=
  ∃ pre post, b.char_vect_extend = pre ++ joined vect q ++ 0 :: post ∧
    b.dic_map[q]? = some (BitVec.ofNat 32 pre.length)

/-- The keys are the queries seen. -/
def Keys (b : Building) (vect : List ST) : Prop :=
  ∀ q, b.dic_map.contains q = true ↔ ∃ v ∈ vect, v.query = q

structure Closed (vect : List ST) (b : Building) : Prop where
  keys : Keys b vect
  written : ∀ v ∈ vect, Written b vect v.query

/-- Between two rounds the last query is still open: its text is being joined
and its offset is the end of the buffer. -/
structure Open (vect : List ST) (b : Building) : Prop where
  keys : Keys b vect
  written : ∀ v ∈ vect, v.query ≠ b.prequery → Written b vect v.query
  current : b.dic_map[b.prequery]? = some (BitVec.ofNat 32 b.char_vect_extend.length)
  extend : b.extend = joined vect b.prequery
  end_ : b.end_ = BitVec.ofNat 32 b.char_vect_extend.length
  last : ∃ v ∈ vect, v.query = b.prequery
  max : ∀ v ∈ vect, compare b.prequery v.query ≠ .lt

def WellFormed (v : ST) : Prop := v.query ≠ [] ∧ NulFree v.query ∧ NulFree v.extend

instance (v : ST) : Decidable (WellFormed v) :=
  inferInstanceAs (Decidable (v.query ≠ [] ∧ NulFree v.query ∧ NulFree v.extend))

theorem Written.push {b : Building} {vect : List ST} {q : Bytes} (h : Written b vect q) :
    Written b.pushExtend vect q := by
  obtain ⟨pre, post, hbuf, hget⟩ := h
  refine ⟨pre, post ++ cstr b.extend ++ [0], ?_, hget⟩
  rw [Building.pushExtend, pushCString, hbuf]
  simp

/-- Another entry does not change the text of `q`. -/
theorem Written.other {b b' : Building} {vect : List ST} {v : ST} {q : Bytes}
    (h : Written b vect q) (hne : v.query ≠ q) (hbuf : b'.char_vect_extend = b.char_vect_extend)
    (hget : b'.dic_map[q]? = b.dic_map[q]?) : Written b' (vect ++ [v]) q := by
  obtain ⟨pre, post, htext, hoff⟩ := h
  exact ⟨pre, post, by rw [hbuf, htext, joined_other hne], by rw [hget, hoff]⟩

/-- Pushing the joined text closes the last query. -/
theorem Open.push {vect : List ST} {b : Building} (h : Open vect b)
    (hwf : ∀ v ∈ vect, WellFormed v) : Closed vect b.pushExtend := by
  refine ⟨h.keys, fun v hv => ?_⟩
  by_cases hlast : v.query = b.prequery
  · have hfree : NulFree b.extend := h.extend ▸ nulFree_joined (fun v hv => (hwf v hv).2.2) _
    refine ⟨b.char_vect_extend, [], ?_, ?_⟩
    · rw [Building.pushExtend, pushCString_of_nulFree hfree, hlast, ← h.extend]
    · rw [hlast]
      exact h.current
  · exact (h.written v hv hlast).push

theorem Open.push_end {vect : List ST} {b : Building} (h : Open vect b) :
    b.pushExtend.end_ = BitVec.ofNat 32 b.pushExtend.char_vect_extend.length := by
  have hlen : b.pushExtend.char_vect_extend.length =
      b.char_vect_extend.length + ((cstr b.extend).length + 1) := by
    rw [Building.pushExtend, pushCString, List.length_append, List.length_append,
      List.length_singleton, Nat.add_assoc]
  rw [hlen, BitVec.ofNat_add, ← h.end_]
  rfl

/-- Two words neither of which is below the other. -/
theorem eq_of_not_lt {a b : Bytes} (hab : compare a b ≠ .lt) (hba : compare b a ≠ .lt) : a = b := by
  cases h : compare a b with
  | lt => exact absurd h hab
  | eq => exact strcmp_eq_iff.mp h
  | gt => exact absurd (strcmp_gt_iff.mp h) hba

/-- A further entry of the last query joins its text. -/
theorem Open.round_same {vect : List ST} {b : Building} (h : Open vect b) {v : ST}
    (hv : NulFree v.query) (hlast : b.prequery = v.query) :
    Open (vect ++ [v]) { b.round v with prequery := v.query } := by
  obtain ⟨w, hw, hwq⟩ := h.last
  have hin : b.dic_map.contains (cstr v.query) = true := by
    rw [cstr_eq_self hv]
    exact (h.keys v.query).mpr ⟨w, hw, hwq.trans hlast⟩
  rw [Building.round, if_pos hin]
  refine ⟨fun q => ?_, fun x hx hne => ?_, ?_, ?_, h.end_, ⟨v, by simp, rfl⟩, fun x hx => ?_⟩
  · rw [h.keys q]
    constructor
    · rintro ⟨x, hx, hxq⟩
      exact ⟨x, List.mem_append_left _ hx, hxq⟩
    · rintro ⟨x, hx, hxq⟩
      rcases List.mem_append.mp hx with hx | hx
      · exact ⟨x, hx, hxq⟩
      · rw [List.mem_singleton.mp hx] at hxq
        exact ⟨w, hw, hwq.trans (hlast.trans hxq)⟩
  · rcases List.mem_append.mp hx with hx | hx
    · exact (h.written x hx fun he => hne (he.trans hlast)).other (Ne.symm hne) rfl rfl
    · exact absurd (congrArg ST.query (List.mem_singleton.mp hx)) hne
  · exact hlast ▸ h.current
  · rw [joined_next hw (hwq.trans hlast), ← hlast, ← h.extend]
  · rcases List.mem_append.mp hx with hx | hx
    · exact hlast ▸ h.max x hx
    · rw [List.mem_singleton.mp hx]
      exact not_strcmp_lt_self _

/-- The first entry of a new query closes the one before. -/
theorem Open.round_new {vect : List ST} {b : Building} (h : Open vect b) {v : ST}
    (hwf : ∀ u ∈ vect, WellFormed u) (hv : NulFree v.query)
    (hnew : ∀ u ∈ vect, u.query ≠ v.query)
    (hsorted : ∀ u ∈ vect, compare v.query u.query ≠ .lt) :
    Open (vect ++ [v]) { b.round v with prequery := v.query } := by
  obtain ⟨w, hw, hwq⟩ := h.last
  have hnot : ¬ b.dic_map.contains (cstr v.query) = true := by
    rw [cstr_eq_self hv, h.keys v.query]
    rintro ⟨u, hu, huq⟩
    exact hnew u hu huq
  have hpre : b.prequery ≠ [] := hwq ▸ (hwf w hw).1
  have hclosed := h.push hwf
  rw [Building.round, if_neg hnot]
  simp only [hpre, ne_eq, not_false_eq_true, if_true]
  refine ⟨fun q => ?_, fun x hx hne => ?_, ?_, ?_, h.push_end, ⟨v, by simp, rfl⟩, fun x hx => ?_⟩
  · rw [Std.TreeMap.contains_insert, Bool.or_eq_true, beq_iff_eq, Std.compare_eq_iff_eq]
    have hkeys := hclosed.keys q
    rw [hkeys]
    simp only [List.mem_append, List.mem_singleton, or_and_right, exists_or, exists_eq_left]
    exact or_comm
  · rcases List.mem_append.mp hx with hx | hx
    · refine (hclosed.written x hx).other (Ne.symm hne) rfl ?_
      dsimp only
      rw [Std.TreeMap.getElem?_insert, if_neg]
      rw [Std.compare_eq_iff_eq]
      exact Ne.symm hne
    · exact absurd (congrArg ST.query (List.mem_singleton.mp hx)) hne
  · dsimp only
    rw [Std.TreeMap.getElem?_insert_self, h.push_end]
  · exact (joined_first hnew).symm
  · rcases List.mem_append.mp hx with hx | hx
    · exact hsorted x hx
    · rw [List.mem_singleton.mp hx]
      exact not_strcmp_lt_self _

theorem Open.round {vect : List ST} {b : Building} (h : Open vect b) {v : ST}
    (hwf : ∀ u ∈ vect, WellFormed u) (hv : NulFree v.query)
    (hsorted : ∀ u ∈ vect, compare v.query u.query ≠ .lt) :
    Open (vect ++ [v]) { b.round v with prequery := v.query } := by
  by_cases hseen : ∃ u ∈ vect, u.query = v.query
  · obtain ⟨u, hu, huq⟩ := hseen
    obtain ⟨w, hw, hwq⟩ := h.last
    exact h.round_same hv (eq_of_not_lt (huq ▸ h.max u hu) (hwq ▸ hsorted w hw))
  · exact h.round_new hwf hv (fun u hu huq => hseen ⟨u, hu, huq⟩) hsorted

theorem Open.first (v : ST) : Open [v] { Building.init.round v with prequery := v.query } := by
  have hround : Building.init.round v =
      { Building.init with
        dic_map := (∅ : Std.TreeMap Bytes (BitVec 32)).insert v.query 0
        extend := stringTrim v.extend } := by
    rw [Building.round, if_neg (by simp [Building.init])]
    simp [Building.init]
  rw [hround]
  refine ⟨fun q => ?_, fun x hx hne => ?_, ?_, ?_, rfl, ⟨v, by simp, rfl⟩, fun x hx => ?_⟩
  · rw [Std.TreeMap.contains_insert]
    simp
  · exact absurd (congrArg ST.query (List.mem_singleton.mp hx)) hne
  · exact Std.TreeMap.getElem?_insert_self
  · exact (@joined_first v [] (by simp)).symm
  · rw [List.mem_singleton.mp hx]
    exact not_strcmp_lt_self _

theorem outputLoop_closed : ∀ (rest vect : List ST) (v : ST) (b : Building),
    Open (vect ++ [v]) { b.round v with prequery := v.query } →
    (∀ u ∈ vect ++ v :: rest, WellFormed u) →
    (vect ++ v :: rest).Pairwise (fun a b => comp b a = false) →
    Closed (vect ++ v :: rest) (outputLoop (v :: rest) b) := by
  intro rest
  induction rest with
  | nil =>
    intro vect v b h hwf _
    exact h.push hwf
  | cons v' rest ih =>
    intro vect v b h hwf hsorted
    have hsplit : vect ++ v :: v' :: rest = (vect ++ [v]) ++ v' :: rest := by simp
    rw [hsplit] at hwf hsorted ⊢
    rw [outputLoop, if_neg (List.cons_ne_nil v' rest)]
    refine ih (vect ++ [v]) v' _ (h.round ?_ ?_ ?_) hwf hsorted
    · exact fun u hu => hwf u (List.mem_append_left _ hu)
    · exact (hwf v' (by simp)).2.1
    · intro u hu hlt
      have hcomp := (List.pairwise_append.mp hsorted).2.2 u hu v' List.mem_cons_self
      rw [comp, hlt] at hcomp
      cases hcomp

theorem outputLoop_spec {vect : List ST} (hwf : ∀ v ∈ vect, WellFormed v)
    (hsorted : vect.Pairwise fun a b => comp b a = false) :
    Closed vect (outputLoop vect .init) := by
  cases vect with
  | nil => exact ⟨fun q => by simp [outputLoop, Building.init], by simp⟩
  | cons v rest => exact outputLoop_closed rest [] v .init (Open.first v) hwf hsorted

/-! ## Keys and values -/

section
variable {vect : List ST} {b : Building}

theorem Closed.query_of_mem (h : Closed vect b) {e : Bytes × BitVec 32}
    (he : e ∈ b.dic_map.toList) : ∃ v ∈ vect, v.query = e.1 := by
  refine (h.keys e.1).mp ?_
  rw [Std.TreeMap.contains_eq_isSome_getElem?, Std.TreeMap.mem_toList_iff_getElem?_eq_some.mp he]
  rfl

theorem Closed.nulFree (h : Closed vect b) (hwf : ∀ v ∈ vect, WellFormed v) :
    ∀ e ∈ b.dic_map.toList, NulFree e.1 := fun e he => by
  obtain ⟨v, hv, hq⟩ := h.query_of_mem he
  exact hq ▸ (hwf v hv).2.1

theorem Closed.lookup_none (h : Closed vect b) (hwf : ∀ v ∈ vect, WellFormed v) {q : Bytes}
    (hq : ∀ v ∈ vect, v.query ≠ q) : (daKeys b.dic_map).lookup q = none := by
  refine lookup_eq_none_of_notMem ?_
  rw [daKeys_keys (h.nulFree hwf)]
  intro hmem
  obtain ⟨e, he, rfl⟩ := List.mem_map.mp hmem
  obtain ⟨v, hv, hvq⟩ := h.query_of_mem he
  exact hq v hv hvq

end

/-! ## The file -/

theorem dartsOpen_saved (junk : Nat → Nat → UInt8) {units : List (BitVec 32)}
    (hpos : 0 < units.length) (pre post : Bytes) :
    dartsOpen junk (pre ++ (block units ++ post)) pre.length (units.length * 4) = some units := by
  have hread : fread (fresh junk 0 (4 * units.length)) 4 units.length (block units ++ post) =
      ⟨block units, units.length, post⟩ := fread_block units _ post (by decide) (fresh_length _ _ _)
  have hsize : units.length * 4 / 4 = units.length := Nat.mul_div_cancel _ (by decide)
  have hne : ¬ units.length * 4 = 0 := by omega
  simp only [dartsOpen, hne, if_false, hsize, List.drop_left, hread, ne_eq, not_true_eq_false,
    unblock_block]

section
variable (junk : Nat → Nat → UInt8) {units : List (BitVec 32)} {da_size : BitVec 32} (rest : Bytes)

/-- A file that begins as both writers begin it. -/
def fileOf (da_size : BitVec 32) (units : List (BitVec 32)) (rest : Bytes) : Bytes :=
  Pod.toBytes (0 : BitVec 32) ++ (Pod.toBytes da_size ++ (block units ++ rest))

theorem fileOf_first : fread (Pod.toBytes (0 : BitVec 32)) 4 1 (fileOf da_size units rest) =
    ⟨Pod.toBytes (0 : BitVec 32), 1, Pod.toBytes da_size ++ (block units ++ rest)⟩ :=
  fread_u32 0 _ _ rfl

theorem fileOf_length :
    (Pod.toBytes (0 : BitVec 32) ++ Pod.toBytes da_size).length = 4 + 4 := by
  rw [List.length_append, Pod.length_toBytes, Pod.length_toBytes]
  rfl

theorem fileOf_open (hpos : 0 < units.length) :
    dartsOpen junk (fileOf da_size units rest) (4 + 4) (units.length * 4) = some units := by
  have hopen := dartsOpen_saved junk hpos (Pod.toBytes (0 : BitVec 32) ++ Pod.toBytes da_size) rest
  rwa [fileOf_length, List.append_assoc] at hopen

theorem fileOf_drop : (fileOf da_size units rest).drop (4 + 4 + units.length * 4) = rest := by
  rw [fileOf, ← List.append_assoc, ← List.append_assoc]
  refine List.drop_left' ?_
  rw [List.length_append, fileOf_length, block_length, Nat.mul_comm units.length]
  rfl

end

/-- A written file loads with the units and the buffer. -/
theorem loadIndex_written (junk : Nat → Nat → UInt8) {units : List (BitVec 32)} {buf : Bytes}
    (hpos : 0 < units.length) (hunits : units.length * 4 < 2 ^ 32) (hbuf : buf.length < 2 ^ 32)
    (post : Bytes) :
    loadIndex junk (Pod.toBytes (0 : BitVec 32) ++ Pod.toBytes (BitVec.ofNat 32 (units.length * 4)) ++
      block units ++ Pod.toBytes (BitVec.ofNat 32 buf.length) ++ buf ++ post) =
      some ⟨units, buf, BitVec.ofNat 32 buf.length⟩ := by
  have hda : (BitVec.ofNat 32 (units.length * 4)).toNat = units.length * 4 := by
    rw [BitVec.toNat_ofNat, Nat.mod_eq_of_lt hunits]
  have hlen : (BitVec.ofNat 32 buf.length).toNat = buf.length := by
    rw [BitVec.toNat_ofNat, Nat.mod_eq_of_lt hbuf]
  generalize hsize : BitVec.ofNat 32 (units.length * 4) = da_size at hda ⊢
  generalize hcount : BitVec.ofNat 32 buf.length = size_ at hlen ⊢
  have hcountRead := fread_u32 size_ (fresh junk 1 4) (buf ++ post) (fresh_length _ _ _)
  have hbufRead := fread_bytes buf (fresh junk 2 buf.length) post (fresh_length _ _ _)
  simp only [List.append_assoc]
  rw [← fileOf]
  simp only [loadIndex, fileOf_first, fread_u32 da_size (Pod.toBytes (0 : BitVec 32)) _ rfl, ne_eq,
    not_true_eq_false, if_false, Pod.ofBytes_toBytes, hda, fileOf_drop, hcountRead, hlen, hbufRead]
  rw [fileOf_open junk _ hpos]
  rfl

theorem outputIndexFile_file {d : Darts} {sort : List ST → List ST} {vect : List ST}
    (hpos : 0 < (d.build (daKeys (outputLoop (sort vect) .init).dic_map)).length) :
    ∃ post, outputIndexFile d sort vect = (0, Pod.toBytes (0 : BitVec 32) ++
      Pod.toBytes (BitVec.ofNat 32
        ((d.build (daKeys (outputLoop (sort vect) .init).dic_map)).length * 4)) ++
      block (d.build (daKeys (outputLoop (sort vect) .init).dic_map)) ++
      Pod.toBytes (BitVec.ofNat 32 (outputLoop (sort vect) .init).char_vect_extend.length) ++
      (outputLoop (sort vect) .init).char_vect_extend ++ post) := by
  rw [outputIndexFile]
  dsimp only
  rw [if_neg (Nat.ne_of_gt hpos)]
  exact ⟨_, rfl⟩

/-! ## Answers -/

section
variable {d : Darts} {vect : List ST} {b : Building}

/-- A query of the vector finds its joined text. -/
theorem Closed.search_some (h : Closed vect b) (hwf : ∀ v ∈ vect, WellFormed v)
    (hexact : d.Exact (daKeys b.dic_map)) (hsize : b.char_vect_extend.length < 2 ^ 31) {v : ST}
    (hv : v ∈ vect) {q : Bytes} (hq : v.query = cstr q) (index_text : Bytes → Option Bytes) :
    daSearch d ⟨d.build (daKeys b.dic_map), b.char_vect_extend,
        BitVec.ofNat 32 b.char_vect_extend.length⟩ q index_text =
      some (Function.update index_text daName (some (joined vect (cstr q)))) := by
  obtain ⟨pre, post, hbuf, hget⟩ := h.written v hv
  have hshort : pre.length < b.char_vect_extend.length := by
    rw [hbuf, List.length_append, List.length_append, List.length_cons]
    omega
  have hint : (BitVec.ofNat 32 pre.length).toInt = pre.length := by
    rw [BitVec.toInt_ofNat']
    exact Int.bmod_eq_of_le (by omega) (by omega)
  have hret : d.exactMatchSearch (d.build (daKeys b.dic_map)) (cstr q) = pre.length := by
    rw [hexact.search _ (nulFree_cstr q), ← hq, daKeys_lookup (h.nulFree hwf) hget, hint]
    rfl
  have hlen : (BitVec.ofNat 32 b.char_vect_extend.length).toNat = b.char_vect_extend.length := by
    rw [BitVec.toNat_ofNat, Nat.mod_eq_of_lt (by omega)]
  have htext := cstrAt_written (nulFree_joined (fun v hv => (hwf v hv).2.2) v.query) pre post
  rw [← hbuf, hq] at htext
  rw [daSearch]
  simp only [hret, hlen]
  rw [if_pos ⟨by omega, by omega⟩, htext]
  rfl

theorem Closed.search_none (h : Closed vect b) (hwf : ∀ v ∈ vect, WellFormed v)
    (hexact : d.Exact (daKeys b.dic_map)) {q : Bytes} (hq : ∀ v ∈ vect, v.query ≠ cstr q)
    (len : BitVec 32) (index_text : Bytes → Option Bytes) :
    daSearch d ⟨d.build (daKeys b.dic_map), b.char_vect_extend, len⟩ q index_text =
      some index_text := by
  have hret : d.exactMatchSearch (d.build (daKeys b.dic_map)) (cstr q) = -1 := by
    rw [hexact.search _ (nulFree_cstr q), h.lookup_none hwf hq]
    rfl
  rw [daSearch]
  simp only [hret]
  rw [if_neg (by omega)]

theorem Closed.cloneDarts (h : Closed vect b) (hwf : ∀ v ∈ vect, WellFormed v)
    (hsize : keyLength (vect.map ST.query) + 2 < 2 ^ 21) :
    DartsClone.build (daKeys b.dic_map) = .ok (cloneDarts.build (daKeys b.dic_map)) ∧
      DartsClone.Answers (daKeys b.dic_map) (cloneDarts.build (daKeys b.dic_map)) ∧
      cloneDarts.Exact (daKeys b.dic_map) := by
  refine daKeys_cloneDarts (h.nulFree hwf) (fun e he => ?_) hsize
  obtain ⟨v, hv, hvq⟩ := h.query_of_mem he
  exact List.mem_map.mpr ⟨v, hv, hvq⟩

end

/-- **The answer to a query.** The query counts up to its first NUL; the answer
is the joined text of all its entries, and there is none for another query. -/
theorem daSearch_answers (d : Darts) (sort : List ST → List ST) (junk : Nat → Nat → UInt8)
    (vect : List ST) (hperm : (sort vect).Perm vect)
    (hsorted : (sort vect).Pairwise fun a b => comp b a = false)
    (hwf : ∀ v ∈ vect, WellFormed v)
    (hexact : d.Exact (daKeys (outputLoop (sort vect) .init).dic_map))
    (hsize : (outputLoop (sort vect) .init).char_vect_extend.length < 2 ^ 31) :
    (outputIndexFile d sort vect).1 = 0 ∧
      ∃ index, loadIndex junk (outputIndexFile d sort vect).2 = some index ∧
        ∀ q index_text, daSearch d index q index_text =
          some (if ∃ v ∈ vect, v.query = cstr q then
            Function.update index_text daName (some (joined (sort vect) (cstr q)))
          else index_text) := by
  have hwf' : ∀ v ∈ sort vect, WellFormed v := fun v hv => hwf v (hperm.mem_iff.mp hv)
  have hclosed := outputLoop_spec hwf' hsorted
  obtain ⟨post, hout⟩ := outputIndexFile_file hexact.units_pos
  rw [hout]
  refine ⟨rfl, _, loadIndex_written junk hexact.units_pos hexact.units_lt (by omega) post, ?_⟩
  intro q index_text
  split
  · rename_i hin
    obtain ⟨v, hv, hq⟩ := hin
    exact hclosed.search_some hwf' hexact hsize (hperm.mem_iff.mpr hv) hq index_text
  · rename_i hout
    exact hclosed.search_none hwf' hexact
      (fun v hv hq => hout ⟨v, hperm.mem_iff.mp hv, hq⟩) _ index_text

/-! ### Three entries for two queries -/

def sortST : List ST → List ST := List.insertionSort fun a b => comp b a = false

/-- `b` with the extends ` y` and `z`, and `a` with `x`. -/
def threeEntries : List ST := [⟨[98], [32, 121]⟩, ⟨[97], [120]⟩, ⟨[98], [122]⟩]

theorem threeEntries_closed :
    Closed (sortST threeEntries) (outputLoop (sortST threeEntries) .init) :=
  outputLoop_spec (by decide +kernel) (by decide +kernel)

theorem threeEntries_exact :
    cloneDarts.Exact (daKeys (outputLoop (sortST threeEntries) .init).dic_map) :=
  (threeEntries_closed.cloneDarts (by decide +kernel) (by decide +kernel)).2.2

theorem daSearch_answers_three :
    ∃ index, loadIndex (fun _ _ => 0) (outputIndexFile cloneDarts sortST threeEntries).2 =
        some index ∧
      daSearch cloneDarts index [98] (fun _ => none) =
        some (Function.update (fun _ => none) daName (some [121, 124, 124, 124, 122])) := by
  obtain ⟨-, index, hload, hanswer⟩ := daSearch_answers cloneDarts sortST (fun _ _ => 0)
    threeEntries (by decide +kernel) (by decide +kernel) (by decide) threeEntries_exact
    (by decide +kernel)
  refine ⟨index, hload, ?_⟩
  rw [hanswer [98], if_pos (by decide)]
  rfl

/-- The query `a` with a NUL and more behind it is not in the vector, but it is
answered as `a`. -/
theorem daSearch_answers_prefix :
    (∀ v ∈ threeEntries, WellFormed v ∧ v.query ≠ [97, 0, 98]) ∧
      (sortST threeEntries).Perm threeEntries ∧
      ((sortST threeEntries).Pairwise fun a b => comp b a = false) ∧
      cloneDarts.Exact (daKeys (outputLoop (sortST threeEntries) .init).dic_map) ∧
      ∃ index, loadIndex (fun _ _ => 0) (outputIndexFile cloneDarts sortST threeEntries).2 =
          some index ∧
        ¬ (daSearch cloneDarts index [97, 0, 98] fun _ => none) = some fun _ => none := by
  refine ⟨by decide, by decide +kernel, by decide +kernel, threeEntries_exact, ?_⟩
  have hsize : (outputLoop (sortST threeEntries) .init).char_vect_extend.length < 2 ^ 31 := by
    decide +kernel
  obtain ⟨post, hout⟩ := outputIndexFile_file threeEntries_exact.units_pos
  have hload := loadIndex_written (fun _ _ => 0) threeEntries_exact.units_pos
    threeEntries_exact.units_lt (Nat.lt_trans hsize (by decide)) post
  have hsome := threeEntries_closed.search_some (by decide +kernel) threeEntries_exact
    hsize (v := ⟨[97], [120]⟩) (by decide +kernel) (q := [97, 0, 98]) (by decide)
    fun _ => none
  rw [hout]
  refine ⟨_, hload, fun hnone => ?_⟩
  have htext := congrFun (Option.some.inj (hsome.symm.trans hnone)) daName
  rw [Function.update_self] at htext
  cases htext

end CommonTools.Index.IndexDa
