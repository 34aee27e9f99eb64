import CommonTools.Gary.GaryString

/-! # Long queries

A document is a name and its data. `GetDlgResultLongQuery` looks for documents whose name ends
in the query, with what stands in front of it in the data. It takes the first place where the
query stands in the name, and `npos` when there is none. -/
namespace CommonTools.Index.DlgIndex
open CommonTools.Lib CommonTools.Gary

/-! ## `doc_index.cpp` -/

structure DlgResult where
  query : Bytes
  data : List Bytes
deriving DecidableEq

def npos : Nat := 2 ^ 64 - 1

/-- The `size_t` that `std::string::find` returns. -/
def findPos (needle s : Bytes) : Nat := (find needle s).getD npos

/-- One round of the loop: `doc_result` and `has_result`. -/
def longQueryRound (query : Bytes) (state : DlgResult × Bool) (doc_text : Bytes) :
    Option (DlgResult × Bool) := do
  let (doc_result, has_result) := state
  match ← stringSplit doc_text [9] with
  | [name, data] =>
    let pos := findPos query name
    if pos = 0 then some (doc_result, has_result)
    else if (pos + query.length) % 2 ^ 64 = name.length then
      let begin := name.take pos
      if (find begin data).isSome then some (⟨query, doc_result.data ++ [data]⟩, true)
      else some (doc_result, has_result)
    else some (doc_result, has_result)
  | _ => some (doc_result, has_result)

def getDlgResultLongQuery (query : Bytes) (docs : List Bytes) (doc_result : DlgResult) :
    Option (Int × DlgResult) := do
  let (doc_result, has_result) ←
    if 0 < docs.length ∧ docs.length < 10 then
      docs.foldlM (longQueryRound query) (doc_result, false)
    else some (doc_result, false)
  some (if has_result then 0 else -1, doc_result)

/-! ## What it should do -/

/-- The name does not start with the query but ends with it, and what is in front of the query
occurs in the data. -/
def Wanted (query name data : Bytes) : Prop :=
  ¬ query <+: name ∧ query <:+ name ∧ name.take (name.length - query.length) <:+: data

instance (query name data : Bytes) : Decidable (Wanted query name data) :=
  inferInstanceAs (Decidable (_ ∧ _ ∧ _))

def wantedData (query doc : Bytes) : Option Bytes :=
  match stringSplit doc [9] with
  | some [name, data] => if Wanted query name data then some data else none
  | _ => none

/-- Each round adds the data of its document if this is wanted, and the return value says
whether any document is. -/
def AnswersExactly (query : Bytes) (docs : List Bytes) : Prop :=
  ∀ doc_result,
    (∀ done doc rest, docs = done ++ doc :: rest → ∃ before after : DlgResult × Bool,
      done.foldlM (longQueryRound query) (doc_result, false) = some before ∧
      longQueryRound query before doc = some after ∧
      after.1.data = before.1.data ++ (wantedData query doc).toList) ∧
    ∃ ret r, getDlgResultLongQuery query docs doc_result = some (ret, r) ∧
      r.data = doc_result.data ++ docs.filterMap (wantedData query) ∧
      (ret = 0 ↔ ∃ doc ∈ docs, (wantedData query doc).isSome)

/-- The name is not one byte shorter than the query with all of it in the data, and in a name
that is wanted the query stands at its end only. -/
def NameRight (query name data : Bytes) : Prop :=
  ¬ (name.length + 1 = query.length ∧ name <:+: data) ∧
    (Wanted query name data → find query name = some (name.length - query.length))

/-! ## One document -/

section
variable {query name data : Bytes}

def Adds (query name data : Bytes) : Prop :=
  findPos query name ≠ 0 ∧ (findPos query name + query.length) % 2 ^ 64 = name.length ∧
    (find (name.take (findPos query name)) data).isSome

instance : Decidable (Adds query name data) := inferInstanceAs (Decidable (_ ∧ _ ∧ _))

/-- With the query in the name the sum is the index behind it; without it the sum wraps. -/
theorem adds_iff (hq : query ≠ []) (hquery : query.length < 2 ^ 64) (hname : name.length < 2 ^ 64) :
    Adds query name data ↔
      (∃ pos, find query name = some pos ∧ 0 < pos ∧ pos + query.length = name.length ∧
        name.take pos <:+: data) ∨ (name.length + 1 = query.length ∧ name <:+: data) := by
  have hpos := List.length_pos_iff.mpr hq
  unfold Adds findPos
  cases hfind : find query name with
  | none =>
    have hwrap : (npos + query.length) % 2 ^ 64 = query.length - 1 := by
      unfold npos
      omega
    have hall : name.take npos = name := List.take_of_length_le (by unfold npos; omega)
    simp only [Option.getD_none, hwrap, hall, find_isSome_iff]
    constructor
    · intro h
      exact .inr ⟨by omega, h.2.2⟩
    · intro h
      rcases h with ⟨pos, hsome, -⟩ | ⟨hlen, hin⟩
      · cases hsome
      · exact ⟨by decide, by omega, hin⟩
  | some pos =>
    have hle := find_le hfind
    have hsum : (pos + query.length) % 2 ^ 64 = pos + query.length := Nat.mod_eq_of_lt (by omega)
    simp only [Option.getD_some, hsum, find_isSome_iff]
    constructor
    · intro h
      exact .inl ⟨pos, rfl, Nat.pos_of_ne_zero h.1, h.2.1, h.2.2⟩
    · intro h
      rcases h with ⟨pos', hsome, hlt, hend, hin⟩ | ⟨hlen, -⟩
      · obtain rfl := Option.some.inj hsome
        exact ⟨Nat.ne_of_gt hlt, hend, hin⟩
      · omega

variable (data) in
theorem adds_wanted_iff (hq : query ≠ []) (hquery : query.length < 2 ^ 64)
    (hname : name.length < 2 ^ 64) :
    (Adds query name data ↔ Wanted query name data) ↔ NameRight query name data := by
  rw [adds_iff hq hquery hname]
  have hlonger : query <:+ name → query.length ≤ name.length := List.IsSuffix.length_le
  constructor
  · intro h
    refine ⟨fun hshort => ?_, fun hwanted => ?_⟩
    · have hwanted := h.mp (.inr hshort)
      have hle := hlonger hwanted.2.1
      omega
    · rcases h.mpr hwanted with ⟨pos, hfind, -, hsum, -⟩ | ⟨hlen, -⟩
      · rw [hfind]
        congr 1
        omega
      · have hle := hlonger hwanted.2.1
        omega
  · intro h
    obtain ⟨hshort, hlast⟩ := h
    constructor
    · intro hadds
      rcases hadds with ⟨pos, hfind, hlt, hsum, hin⟩ | hadds
      · obtain ⟨⟨-, hat⟩, hfirst⟩ := find_eq_some_iff.mp hfind
        have hpos : name.length - query.length = pos := by omega
        refine ⟨fun hpre => hfirst 0 hlt hpre, ?_, by rwa [hpos]⟩
        have hdrop : query = name.drop pos := hat.eq_of_length (by rw [List.length_drop]; omega)
        rw [hdrop]
        exact List.drop_suffix pos name
      · exact absurd hadds hshort
    · intro hwanted
      have hfind := hlast hwanted
      obtain ⟨hno, hend, hin⟩ := hwanted
      have hle := hlonger hend
      refine .inl ⟨_, hfind, ?_, by omega, hin⟩
      refine Nat.pos_of_ne_zero fun hzero => hno ?_
      rw [hzero] at hfind
      exact (find_eq_some_iff.mp hfind).1.2

end

/-! ## The loop -/

def addedData (query doc : Bytes) : Option Bytes :=
  match stringSplit doc [9] with
  | some [name, data] => if Adds query name data then some data else none
  | _ => none

/-- What a round does with the data that it adds. -/
def addData (query : Bytes) (state : DlgResult × Bool) : Option Bytes → DlgResult × Bool
  | some data => (⟨query, state.1.data ++ [data]⟩, true)
  | none => state

theorem longQueryRound_eq (query : Bytes) (state : DlgResult × Bool) (doc : Bytes) :
    longQueryRound query state doc = some (addData query state (addedData query doc)) := by
  obtain ⟨parts, -, hsplit⟩ := @stringSplit_pieces doc [9] (by simp) (by simp)
  obtain ⟨r, has⟩ := state
  simp only [longQueryRound, addedData, hsplit, Option.bind_eq_bind, Option.bind_some]
  split
  · rename_i name data
    dsimp only
    by_cases hadds : Adds query name data
    · rw [if_pos hadds, if_neg hadds.1, if_pos hadds.2.1, if_pos hadds.2.2]
      rfl
    · rw [if_neg hadds]
      by_cases h0 : findPos query name = 0
      · rw [if_pos h0]
        rfl
      · by_cases hend : (findPos query name + query.length) % 2 ^ 64 = name.length
        · rw [if_neg h0, if_pos hend, if_neg fun hin => hadds ⟨h0, hend, hin⟩]
          rfl
        · rw [if_neg h0, if_neg hend]
          rfl
  · rename_i hother
    split
    · rename_i name data heq
      exact absurd (Option.some.inj heq) (hother name data)
    · rfl

theorem addData_data (query : Bytes) (state : DlgResult × Bool) (data : Option Bytes) :
    (addData query state data).1.data = state.1.data ++ data.toList := by
  cases data <;> simp [addData]

/-- The documents so far have added their data in order. -/
theorem foldlM_longQueryRound (query : Bytes) :
    ∀ (docs : List Bytes) (state : DlgResult × Bool), ∃ after : DlgResult × Bool,
      docs.foldlM (longQueryRound query) state = some after ∧
      after.1.data = state.1.data ++ docs.filterMap (addedData query) ∧
      (after.2 = true ↔ state.2 = true ∨ ∃ doc ∈ docs, (addedData query doc).isSome)
  | [], state => ⟨state, rfl, by simp, by simp⟩
  | doc :: docs, state => by
    obtain ⟨after, hloop, hdata, hhas⟩ :=
      foldlM_longQueryRound query docs (addData query state (addedData query doc))
    refine ⟨after, ?_, ?_, ?_⟩
    · rw [List.foldlM_cons, longQueryRound_eq]
      exact hloop
    · rw [hdata, addData_data]
      cases hadd : addedData query doc <;> simp [hadd]
    · rw [hhas]
      cases hadd : addedData query doc <;> simp [addData, hadd]

theorem addedData_eq_iff {query doc : Bytes} (hq : query ≠ []) (hquery : query.length < 2 ^ 64)
    (hdoc : doc.length < 2 ^ 64) :
    addedData query doc = wantedData query doc ↔
      ∀ name data, stringSplit doc [9] = some [name, data] → NameRight query name data := by
  unfold addedData wantedData
  split
  · rename_i name data hsplit
    have hpieces := (stringSplit_eq_some_iff (by simp) (by simp)).mp hsplit
    have hname : name.length < 2 ^ 64 :=
      Nat.lt_of_le_of_lt (hpieces.isInfix name List.mem_cons_self).length_le hdoc
    have hiff := adds_wanted_iff data hq hquery hname
    constructor
    · intro heq name' data' hsame
      rw [hsplit] at hsame
      cases hsame
      refine hiff.mp ?_
      by_cases hadds : Adds query name data <;> by_cases hwanted : Wanted query name data <;>
        simp_all
    · intro h
      have hsame := hiff.mpr (h name data hsplit)
      by_cases hwanted : Wanted query name data
      · rw [if_pos (hsame.mpr hwanted), if_pos hwanted]
      · rw [if_neg (mt hsame.mp hwanted), if_neg hwanted]
  · rename_i hother
    simp only [true_iff]
    intro name data hsplit
    exact absurd hsplit (hother name data)

/-- **The answer is exact when each name is right.** -/
theorem getDlgResultLongQuery_exact_iff {query : Bytes} {docs : List Bytes} (hq : query ≠ [])
    (hquery : query.length < 2 ^ 64) (hcount : 0 < docs.length ∧ docs.length < 10)
    (hdocs : ∀ doc ∈ docs, doc.length < 2 ^ 64) :
    AnswersExactly query docs ↔
      ∀ doc ∈ docs, ∀ name data, stringSplit doc [9] = some [name, data] →
        NameRight query name data := by
  have heach : (∀ doc ∈ docs, addedData query doc = wantedData query doc) ↔
      ∀ doc ∈ docs, ∀ name data, stringSplit doc [9] = some [name, data] →
        NameRight query name data :=
    forall₂_congr fun doc hdoc => addedData_eq_iff hq hquery (hdocs doc hdoc)
  rw [← heach]
  constructor
  · intro h doc hdoc
    obtain ⟨done, rest, rfl⟩ := List.append_of_mem hdoc
    obtain ⟨before, after, -, hround, hdata⟩ := (h ⟨[], []⟩).1 done doc rest rfl
    rw [longQueryRound_eq, Option.some.injEq] at hround
    rw [← hround, addData_data] at hdata
    have hsame := List.append_cancel_left hdata
    cases hadd : addedData query doc <;> cases hwant : wantedData query doc <;> simp_all
  · intro h doc_result
    constructor
    · intro done doc rest hsplit
      obtain ⟨before, hloop, -⟩ := foldlM_longQueryRound query done (doc_result, false)
      refine ⟨before, _, hloop, longQueryRound_eq query before doc, ?_⟩
      rw [addData_data, h doc (by simp [hsplit])]
    · obtain ⟨after, hloop, hdata, hhas⟩ := foldlM_longQueryRound query docs (doc_result, false)
      refine ⟨if after.2 then 0 else -1, after.1, ?_, ?_, ?_⟩
      · rw [getDlgResultLongQuery, if_pos hcount, hloop]
        rfl
      · rw [hdata, List.filterMap_congr h]
      · have hret : (if after.2 then (0 : Int) else -1) = 0 ↔ after.2 = true := by
          cases after.2 <;> simp
        rw [hret, hhas]
        simp only [Bool.false_eq_true, false_or]
        exact exists_congr fun doc => and_congr_right fun hdoc => by rw [h doc hdoc]

theorem getDlgResultLongQuery_exact_iff_suffix :
    AnswersExactly [97, 98] [[120, 97, 98, 9, 120]] ↔
      ∀ doc ∈ [[120, 97, 98, 9, 120]], ∀ name data, stringSplit doc [9] = some [name, data] →
        NameRight [97, 98] name data :=
  getDlgResultLongQuery_exact_iff (by simp) (by simp) (by simp) (by simp)

/-- The name `a` is not found to hold the query `ab`, and `npos + 2` is its length. -/
theorem getDlgResultLongQuery_shorter : ¬ AnswersExactly [97, 98] [[97, 9, 120, 97]] := by
  intro h
  obtain ⟨-, ret, r, hrun, hdata, -⟩ := h ⟨[], []⟩
  have hadds : getDlgResultLongQuery [97, 98] [[97, 9, 120, 97]] ⟨[], []⟩ =
      some (0, ⟨[97, 98], [[120, 97]]⟩) := by decide
  have hno : wantedData [97, 98] [97, 9, 120, 97] = none := by decide
  rw [hadds] at hrun
  cases hrun
  simp [hno] at hdata

end CommonTools.Index.DlgIndex
